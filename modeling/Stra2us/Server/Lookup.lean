import Stra2us.Server.Admin

namespace Stra2us.Server

open Foundation

-- The part after the first colon, cut at the slashes: app, device and the rest of the key.
def appOfKey (name key : Text) : Option Text :=
  match ((key.dropWhile (· ≠ ':')).drop 1).splitOn '/' with
  | app :: second :: _ :: _ => if second = name then some app else none
  | _ => none

def lookupPattern (name : Text) : Text :=
  "kv:*/".toList ++ name ++ "/*".toList

def notFound : Exn :=
  .http 404 "No device by that name".toList

-- SCAN hands out the keys that match in an order of its own, and may hand out one twice.
def scan (glob : Text → Text → Bool) (order : List Text) (pattern : Text) (s : Store) :
    List Text :=
  order.filter fun key => glob pattern key && s.has key

def lookupDevice (glob : Text → Text → Bool) (order : List Text) (name : Text) (w : World) :
    Except Exn Text × World :=
  if name = [] ∨ '/' ∈ name then (.error notFound, w)
  else
    match w.store.get (deviceToAppKey name) with
    | some raw =>
        match utf8Decode raw with
        | some app => (.ok app, w)
        | none => (.error (.python "UnicodeDecodeError".toList), w)
    | none =>
        match (scan glob order (lookupPattern name) w.store).findSome? (appOfKey name) with
        | some app => (.ok app, { w with store := w.store.set (deviceToAppKey name) (utf8 app) })
        | none => (.error notFound, w)

-- A lookup writes the index of the name it looks up, and nothing else.
theorem get_lookupDevice {glob : Text → Text → Bool} {order : List Text} {name key : Text}
    {w : World} (h : key ≠ deviceToAppKey name) :
    (lookupDevice glob order name w).2.store.get key = w.store.get key := by
  unfold lookupDevice
  split
  · rfl
  · split
    · split
      · rfl
      · rfl
    · split
      · exact Store.get_set_of_ne _ h _
      · rfl

end Stra2us.Server
