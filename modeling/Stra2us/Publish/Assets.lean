import Mathlib.Data.List.Sort
import Stra2us.Foundation.Interrupt
import Stra2us.Foundation.RoundTrip
import Stra2us.Server.Device

namespace Stra2us.Publish

open Foundation Server

def bytesKey (app filename : Text) : Text :=
  "_catalog/".toList ++ app ++ "/_assets/".toList ++ filename

def metaKey (app filename : Text) : Text :=
  bytesKey app filename ++ ".meta".toList

def indexKey (app : Text) : Text :=
  "_catalog/".toList ++ app ++ "/_assets_index".toList

def yamlKey (app : Text) : Text :=
  "_catalog/".toList ++ app

section Discover

structure LoadedAsset where
  filename : Text
  contentType : Text
  bytesPayload : Bytes
  sha256Hex : Text
  sizeBytes : Nat
deriving DecidableEq, Repr

-- What follows the last dot, with the dot: a dot at either end starts no suffix.
def suffix (filename : Text) : Text :=
  let reversed := filename.reverse
  let tail := reversed.takeWhile (· ≠ '.')
  match reversed.drop tail.length with
  | '.' :: _ :: _ => if tail = [] then [] else '.' :: tail.reverse
  | _ => []

def contentTypeOfSuffix (suffix : Text) : Option Text :=
  if suffix = ".svg".toList then some "image/svg+xml".toList
  else if suffix = ".png".toList then some "image/png".toList
  else if suffix = ".jpg".toList then some "image/jpeg".toList
  else if suffix = ".jpeg".toList then some "image/jpeg".toList
  else if suffix = ".webp".toList then some "image/webp".toList
  else none

def contentTypeFor (filename : Text) : Option Text :=
  contentTypeOfSuffix ((suffix filename).map Char.toLower)

-- An asset as it is loaded; for an SVG the payload is what the sanitizer made of it.
def loadAsset (sha256 : Bytes → Text) (filename : Text) (payload : Bytes) : LoadedAsset where
  filename := filename
  contentType := (contentTypeFor filename).getD "application/octet-stream".toList
  bytesPayload := payload
  sha256Hex := sha256 payload
  sizeBytes := payload.length

def isFilenameChar (c : Char) : Bool :=
  ('a' ≤ c && c ≤ 'z') || c.isDigit || c = '.' || c = '_' || c = '-'

-- What the lint asks of one file by itself.
def LintedName (filename : Text) : Prop :=
  filename.all isFilenameChar ∧ filename.head? ≠ some '.' ∧ filename.length ≤ 64 ∧
    (contentTypeFor filename).isSome

end Discover

-- The shapes of value that are published.
inductive Content
  | bytes (payload : Bytes)
  | sidecar (contentType sha256 : Text) (size : Nat)
  | yaml (text : Text)
  | listing (names : List Text)
deriving DecidableEq, Repr

namespace Content

def sidecarFields (contentType sha256 : Text) (size : Nat) : List (Text × Value) :=
  [("content_type".toList, .str contentType), ("sha256".toList, .str sha256),
    ("size".toList, .int size)]

def toValue : Content → Value
  | .bytes payload => .bytes payload
  | .sidecar contentType sha256 size =>
      .dict (Msgpack.fieldPairs (sidecarFields contentType sha256 size))
  | .yaml text => .str text
  | .listing names => .list (names.map .str)

def names? : List Value → Option (List Text)
  | [] => some []
  | .str name :: rest => (names? rest).map (name :: ·)
  | _ => none

-- What a value that is read back is equal to, if it is one of them.
def ofValue : Value → Option Content
  | .bytes payload => some (.bytes payload)
  | .str text => some (.yaml text)
  | .list items => (names? items).map .listing
  | .dict [(.str a, .str contentType), (.str b, .str sha256), (.str c, .int (.ofNat size))] =>
      if a = "content_type".toList ∧ b = "sha256".toList ∧ c = "size".toList then
        some (.sidecar contentType sha256 size)
      else none
  | _ => none

theorem names?_map (names : List Text) : names? (names.map .str) = some names := by
  induction names with
  | nil => rfl
  | cons name names ih => simp only [List.map_cons, names?, ih, Option.map_some]

theorem ofValue_toValue (content : Content) : ofValue content.toValue = some content := by
  cases content with
  | bytes payload => rfl
  | yaml text => rfl
  | sidecar contentType sha256 size => rfl
  | listing names => simp only [toValue, ofValue, names?_map, Option.map_some]

-- What is published is read back as it was.
theorem unpackb_toValue {content : Content} {bytes : Bytes}
    (h : Msgpack.packb content.toValue = some bytes) :
    Msgpack.unpackb false bytes = some content.toValue := by
  apply Msgpack.unpackb_of_readsBack _ h
  cases content with
  | bytes payload => exact Msgpack.readsBack_bytes payload
  | yaml text => exact Msgpack.readsBack_str text
  | listing names =>
      refine @Msgpack.readsBack_list 1023 _ fun item hitem => ?_
      obtain ⟨name, -, rfl⟩ := List.mem_map.mp hitem
      exact Msgpack.readsBack_str name
  | sidecar contentType sha256 size =>
      refine @Msgpack.readsBack_dict 1023 _ ?_ fun field hfield => ?_
      · change ["content_type".toList, "sha256".toList, "size".toList].Nodup
        decide
      · simp only [sidecarFields, List.mem_cons, List.not_mem_nil, or_false] at hfield
        rcases hfield with rfl | rfl | rfl
        · exact Msgpack.readsBack_str contentType
        · exact Msgpack.readsBack_str sha256
        · exact Msgpack.readsBack_int size

end Content

section Client

-- What a publish asks of its client. A get brings no value where there is no record.
inductive ClientCmd
  | get (key : Text)
  | put (key : Text) (content : Content)
  | delete (key : Text)

abbrev ClientReply : ClientCmd → Type
  | .get _ => Except Exn (Option Value)
  | .put _ _ => Except Exn Unit
  | .delete _ => Except Exn Unit

abbrev Publisher (α : Type) : Type :=
  ExceptT Exn (Prog ClientCmd ClientReply) α

def Publisher.ask (cmd : ClientCmd) : Publisher (ClientReply cmd) :=
  ExceptT.lift (Prog.perform cmd)

def stra2usError : Exn := .python "Stra2usError".toList

def publishError : Exn := .python "PublishError".toList

-- `except Stra2usError as e: raise PublishError(...) from e`
def asPublishError (exn : Exn) : Exn :=
  if exn = stra2usError then publishError else exn

end Client

section Publish

-- Strings are ordered by their code points.
def upTo : Text → Text → Bool
  | [], _ => true
  | _ :: _, [] => false
  | a :: as, b :: bs => a.toNat < b.toNat || (a = b && upTo as bs)

def sorted (names : List Text) : List Text :=
  names.insertionSort fun a b => upTo a b

-- An index that cannot be read counts as an empty one.
def existingIndex (app : Text) : Publisher (List Text) := do
  match ← Publisher.ask (.get (indexKey app)) with
  | .error exn => if exn = stra2usError then pure [] else throw exn
  | .ok none => pure []
  | .ok (some value) =>
      match Content.ofValue value with
      | some (.listing names) => pure names
      | _ => pure []

def putAndVerify (key : Text) (content : Content) : Publisher Unit := do
  match ← Publisher.ask (.put key content) with
  | .error exn => throw (asPublishError exn)
  | .ok () =>
      match ← Publisher.ask (.get key) with
      | .error exn => throw (asPublishError exn)
      | .ok observed =>
          if observed.bind Content.ofValue = some content then pure ()
          else throw publishError

def uploadAssets (app : Text) : List LoadedAsset → Publisher Unit
  | [] => pure ()
  | a :: rest => do
      putAndVerify (bytesKey app a.filename) (.bytes a.bytesPayload)
      putAndVerify (metaKey app a.filename) (.sidecar a.contentType a.sha256Hex a.sizeBytes)
      uploadAssets app rest

def collect (app : Text) : List Text → Publisher Unit
  | [] => pure ()
  | filename :: rest => do
      match ← Publisher.ask (.delete (bytesKey app filename)) with
      | .error exn => throw (asPublishError exn)
      | .ok () =>
          match ← Publisher.ask (.delete (metaKey app filename)) with
          | .error exn => throw (asPublishError exn)
          | .ok () => collect app rest

structure PublishResult where
  assetsUploaded : Nat
  droppedFilenames : List Text

def dropped (oldListing newListing : List Text) : List Text :=
  sorted (oldListing.filter (· ∉ newListing)).dedup

def publishAssets (app : Text) (assets : List LoadedAsset) (yamlText : Text) :
    Publisher PublishResult := do
  let newListing := sorted (assets.map LoadedAsset.filename)
  let oldListing ← existingIndex app
  uploadAssets app assets
  putAndVerify (yamlKey app) (.yaml yamlText)
  putAndVerify (indexKey app) (.listing newListing)
  collect app (dropped oldListing newListing)
  pure ⟨assets.length, dropped oldListing newListing⟩

end Publish

end Stra2us.Publish
