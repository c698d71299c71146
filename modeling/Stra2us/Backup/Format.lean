import Stra2us.Foundation.Base64
import Stra2us.Foundation.Dict
import Stra2us.Server.Dependencies

namespace Stra2us.Backup

open Foundation Server

-- A string as JSON brings it: text, or code points with a lone surrogate among them.
inductive Str
  | text (text : Text)
  | surrogates (units : List Nat)
deriving DecidableEq, Repr

namespace Str

def toValue : Str → Value
  | .text t => .str t
  | .surrogates units => .surrogates units

def ofValue? : Value → Option Str
  | .str t => some (.text t)
  | .surrogates units => some (.surrogates units)
  | _ => none

def isText (s : Str) (text : Text) : Bool :=
  s = .text text

def startsWith (s : Str) (pre : Text) : Bool :=
  match s with
  | .text t => pre <+: t
  | .surrogates units => pre.map Char.toNat <+: units

-- Lone surrogates have no UTF-8 form.
def encode : Str → Except Exn Text
  | .text t => .ok t
  | .surrogates _ => .error (.python "UnicodeEncodeError".toList)

@[simp] theorem encode_text (t : Text) : (Str.text t).encode = .ok t := rfl

@[simp] theorem ofValue?_toValue (s : Str) : ofValue? s.toValue = some s := by
  cases s <;> rfl

theorem encode_ok {s : Str} {t : Text} : s.encode = .ok t ↔ s = .text t := by
  cases s with
  | text _ => simp [encode]
  | surrogates units => simp [encode]

end Str

structure ClientRecord where
  secret : Str
  acl : Value

structure KvRecord where
  value : Bytes
  encrypted : Bool

structure StreamEntry where
  id : Str
  fields : Dict Str Bytes

inductive DumpKind
  | whole
  | perApp
deriving DecidableEq, Repr

structure BackupEnvelope where
  dumpKind : DumpKind
  app : Value
  exportedAt : Value
  clients : Dict Str ClientRecord
  adminAcls : Dict Str Value
  kv : Dict Str KvRecord
  queues : Dict Str (List StreamEntry)
  activityLog : Option (List StreamEntry)
  deviceToApp : Dict Str Str

section ToJson

def object (members : List (Text × Value)) : Value :=
  .dict (members.map fun m => (.str m.1, m.2))

def dictToJson {α : Type} (f : α → Value) (d : Dict Str α) : Value :=
  .dict (d.entries.map fun entry => (entry.1.toValue, f entry.2))

def clientToJson (record : ClientRecord) : Value :=
  object [("secret".toList, record.secret.toValue), ("acl".toList, record.acl)]

def kvToJson (record : KvRecord) : Value :=
  object [("value".toList, .str (Base64.encode record.value)),
    ("encrypted".toList, .bool record.encrypted)]

def streamToJson (entry : StreamEntry) : Value :=
  object [("id".toList, entry.id.toValue),
    ("fields".toList, dictToJson (fun value => .str (Base64.encode value)) entry.fields)]

def DumpKind.toJson : DumpKind → Value
  | .whole => .str "whole".toList
  | .perApp => .str "per-app".toList

def BackupEnvelope.toJson (env : BackupEnvelope) : Value :=
  object [("stra2us_backup_version".toList, .int 1), ("dump_kind".toList, env.dumpKind.toJson),
    ("app".toList, env.app), ("exported_at".toList, env.exportedAt),
    ("data".toList, object [
      ("clients".toList, dictToJson clientToJson env.clients),
      ("admin_acls".toList, dictToJson id env.adminAcls),
      ("kv".toList, dictToJson kvToJson env.kv),
      ("queues".toList, dictToJson (fun entries => .list (entries.map streamToJson)) env.queues),
      ("activity_log".toList, match env.activityLog with
        | none => .none
        | some entries => .list (entries.map streamToJson)),
      ("device_to_app".toList, dictToJson Str.toValue env.deviceToApp)])]

end ToJson

-- Which part of the document an error is about.
inductive Place
  | kvValue (key : Str)
  | queue (topic : Str)
  | activityLog
  | field (place : Place) (name : Str)
deriving DecidableEq, Repr

inductive FormatError
  | notObject
  | version (found : Value)
  | dumpKind (found : Value)
  | perAppName
  | dataNotObject
  | clientSecret (clientId : Str)
  | adminAcl (user : Str)
  | kvValue (key : Str)
  | queueList (topic : Str)
  | logList
  | streamEntry (place : Place)
  | fieldsObject (place : Place)
  | base64Text (place : Place)
  | base64Invalid (place : Place)

-- A BackupFormatError, or an exception nobody raised on purpose.
inductive ParseError
  | format (error : FormatError)
  | python (name : Text)

section FromJson

-- `str()` of a value that is no string.
variable (strOf : Value → Str)

def pyStr (value : Value) : Str :=
  (Str.ofValue? value).getD (strOf value)

-- `x or default`
def orElse (value : Option Value) (default : Value) : Value :=
  match value with
  | some v => if v.truthy then v else default
  | none => default

-- The keys of a JSON object are strings.
def stringKeyed (pairs : List (Value × Value)) : List (Str × Value) :=
  pairs.filterMap fun pair => (Str.ofValue? pair.1).map fun key => (key, pair.2)

def itemsOf (value : Option Value) : Except ParseError (List (Str × Value)) :=
  match orElse value (.dict []) with
  | .dict pairs => .ok (stringKeyed pairs)
  | _ => .error (.python "AttributeError".toList)

def parseEach {α : Type} (parse : Str → Value → Except ParseError α)
    (items : List (Str × Value)) : Except ParseError (Dict Str α) := do
  let entries ← items.mapM fun item => do
    let value ← parse item.1 item.2
    .ok (item.1, value)
  .ok (Dict.ofList entries)

def isOne : Value → Bool
  | .int n => n = 1
  | .bool b => b
  | .float x => x.bits = 0x3ff0000000000000
  | _ => false

def b64decode (place : Place) : Value → Except ParseError Bytes
  | .str text =>
      match Base64.decode text with
      | some bytes => .ok bytes
      | none => .error (.format (.base64Invalid place))
  | .surrogates _ => .error (.format (.base64Invalid place))
  | _ => .error (.format (.base64Text place))

def clientFromJson (clientId : Str) : Value → Except ParseError ClientRecord
  | .dict pairs =>
      match Value.lookup pairs "secret".toList with
      | some secret =>
          .ok ⟨pyStr strOf secret, orElse (Value.lookup pairs "acl".toList) (.dict [])⟩
      | none => .error (.format (.clientSecret clientId))
  | _ => .error (.format (.clientSecret clientId))

def adminAclFromJson (user : Str) : Value → Except ParseError Value
  | .dict pairs => .ok (.dict pairs)
  | _ => .error (.format (.adminAcl user))

def kvFromJson (key : Str) : Value → Except ParseError KvRecord
  | .dict pairs =>
      match Value.lookup pairs "value".toList with
      | some value => do
          let bytes ← b64decode (.kvValue key) value
          .ok ⟨bytes, ((Value.lookup pairs "encrypted".toList).getD (.bool false)).truthy⟩
      | none => .error (.format (.kvValue key))
  | _ => .error (.format (.kvValue key))

def streamFromJson (place : Place) : Value → Except ParseError StreamEntry
  | .dict pairs =>
      match Value.lookup pairs "id".toList, Value.lookup pairs "fields".toList with
      | some id, some (.dict fields) => do
          let fields ← parseEach (fun name value => b64decode (.field place name) value)
            (stringKeyed fields)
          .ok ⟨pyStr strOf id, fields⟩
      | some _, some _ => .error (.format (.fieldsObject place))
      | _, _ => .error (.format (.streamEntry place))
  | _ => .error (.format (.streamEntry place))

def queueFromJson (topic : Str) : Value → Except ParseError (List StreamEntry)
  | .list entries => entries.mapM (streamFromJson strOf (.queue topic))
  | _ => .error (.format (.queueList topic))

def logFromJson : Option Value → Except ParseError (Option (List StreamEntry))
  | none | some .none => .ok none
  | some (.list entries) => do
      let entries ← entries.mapM (streamFromJson strOf .activityLog)
      .ok (some entries)
  | some _ => .error (.format .logList)

def dumpKindFromJson (kind : Value) : Except ParseError DumpKind :=
  if isText kind "whole".toList then .ok .whole
  else if isText kind "per-app".toList then .ok .perApp
  else .error (.format (.dumpKind kind))

def dataFromJson (kind : DumpKind) (app exportedAt : Value) (data : List (Value × Value)) :
    Except ParseError BackupEnvelope := do
  let section_ (name : String) := itemsOf (Value.lookup data name.toList)
  let clients ← parseEach (clientFromJson strOf) (← section_ "clients")
  let adminAcls ← parseEach adminAclFromJson (← section_ "admin_acls")
  let kv ← parseEach kvFromJson (← section_ "kv")
  let queues ← parseEach (queueFromJson strOf) (← section_ "queues")
  let activityLog ← logFromJson strOf (Value.lookup data "activity_log".toList)
  let deviceToApp ← parseEach (fun _ value => .ok (pyStr strOf value)) (← section_ "device_to_app")
  .ok ⟨kind, app, exportedAt, clients, adminAcls, kv, queues, activityLog, deviceToApp⟩

def BackupEnvelope.fromJson : Value → Except ParseError BackupEnvelope
  | .dict doc => do
      let get (name : String) := (Value.lookup doc name.toList).getD .none
      if ¬ isOne (get "stra2us_backup_version") then
        .error (.format (.version (get "stra2us_backup_version")))
      else
        let kind ← dumpKindFromJson (get "dump_kind")
        let app := get "app"
        if kind = .perApp ∧ (Str.ofValue? app).isNone then .error (.format .perAppName)
        else
          match get "data" with
          | .dict data =>
              dataFromJson strOf kind app
                (orElse (Value.lookup doc "exported_at".toList) (.str [])) data
          | _ => .error (.format .dataNotObject)
  | _ => .error (.format .notObject)

end FromJson

section Predicates

-- A prefix that is no string has no `startswith`.
def prefixInApp (app : Text) : Value → Except Exn Bool
  | .str text => .ok (text = app ∨ app ++ "/".toList <+: text)
  | .surrogates units => .ok ((app ++ "/".toList).map Char.toNat <+: units)
  | _ => .error (.python "AttributeError".toList)

def permMatchesApp (app : Text) (perm : Value) : Except Exn Bool := do
  prefixInApp app (orElse (← getField perm "prefix".toList) (.str []))

def somePermMatchesApp (app : Text) : List Value → Except Exn Bool
  | [] => .ok false
  | perm :: rest => do
      if ← permMatchesApp app perm then .ok true else somePermMatchesApp app rest

def clientMatchesApp (acl : Value) (app : Text) : Except Exn Bool := do
  let permissions := orElse (← getField acl "permissions".toList) (.list [])
  let items ← iterate permissions
  somePermMatchesApp app items

def adminAclMatchesApp (acl : Value) (app : Text) : Except Exn Bool :=
  clientMatchesApp acl app

def kvKeyBelongsToApp (key : Str) (app : Text) : Bool :=
  key.isText app || key.startsWith (app ++ "/".toList) ||
    key.isText (catalogStashPrefix ++ app) || key.startsWith (catalogStashPrefix ++ app ++ "/".toList)

def queueTopicBelongsToApp (topic : Str) (app : Text) : Bool :=
  topic.isText app || topic.startsWith (app ++ "/".toList)

end Predicates

end Stra2us.Backup
