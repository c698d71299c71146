import Stra2us.Server.Form

namespace Stra2us.Page

open Foundation Server

-- What the page shows for a variable.
structure Resolved where
  value : Option Text
  encrypted : Bool
  fromDefault : Bool
deriving DecidableEq, Repr

-- A record that is missing, cannot be unpacked or holds nothing has no value.
def readKv (s : Store) (key : Text) : Option Value × Bool :=
  match s.get (kvKey key) with
  | none => (none, false)
  | some raw =>
      let encrypted := truthy (s.get (encKey key))
      match Msgpack.unpackb false raw with
      | none | some .none => (none, encrypted)
      | some value => (some value, encrypted)

section Resolve

-- `str()` of a value that is no string, no truth value and no integer.
variable (strOf : Value → Text)

def pyText : Value → Text
  | .str text => text
  | .int n => intText n
  | value => strOf value

def toFormString : Value → Text
  | .bool b => if b then "true".toList else "false".toList
  | value => pyText strOf value

def resolveValue (s : Store) (app device name : Text) (var : List (Value × Value)) : Resolved :=
  match readKv s (fieldKey app device name) with
  | (some value, encrypted) => ⟨some (toFormString strOf value), encrypted, false⟩
  | (none, _) =>
      match readKv s (fieldKey app "public".toList name) with
      | (some value, encrypted) => ⟨some (toFormString strOf value), encrypted, false⟩
      | (none, _) =>
          match Value.lookup var "default".toList with
          | none | some .none => ⟨none, false, false⟩
          | some default => ⟨some (toFormString strOf default), false, true⟩

end Resolve

end Stra2us.Page
