import Stra2us.Backup.Format
import Stra2us.Foundation.Batch
import Stra2us.Server.Admin

namespace Stra2us.Backup

open Foundation Server

-- An id as XADD takes it: in full, within a millisecond, or left to the server.
inductive IdRequest
  | exact (id : StreamId)
  | within (ms : Nat)
  | next
deriving DecidableEq, Repr

def maxSeq : Nat := 2 ^ 64 - 1

def IdRequest.resolve (last : StreamId) (nowMs : Nat) : IdRequest → Option StreamId
  | .exact id => some id
  | .within ms =>
      if last.ms ≠ ms then some ⟨ms, 0⟩
      else if last.seq < maxSeq then some ⟨ms, last.seq + 1⟩
      else none
  | .next =>
      if last.ms < nowMs then some ⟨nowMs, 0⟩
      else if last.seq < maxSeq then some ⟨last.ms, last.seq + 1⟩
      else if last.ms < maxSeq then some ⟨last.ms + 1, 0⟩
      else none

-- How a restore is run: how deep JSON may nest, how Redis reads an id, its clock, and the
-- two parameters of the call.
structure Restoring where
  jsonDepth : Nat
  parseId : Text → Option IdRequest
  nowMs : Nat
  forceOverwrite : Bool
  appFilter : Option Text

inductive Outcome
  | restored
  | skipped
  | overwritten
deriving DecidableEq, Repr

structure Section where
  restored : List Str
  skipped : List Str
  overwritten : List Str

def Section.empty : Section := ⟨[], [], []⟩

def Section.note (name : Str) : Outcome → Section → Section
  | .restored, s => { s with restored := s.restored ++ [name] }
  | .skipped, s => { s with skipped := s.skipped ++ [name] }
  | .overwritten, s => { s with overwritten := s.overwritten ++ [name] }

structure LogSection where
  restored : Nat
  skipped : Bool
  overwritten : Bool

def LogSection.note (count : Nat) : Outcome → LogSection → LogSection
  | .restored, s => { s with restored := count }
  | .skipped, s => { s with skipped := true }
  | .overwritten, s => { s with restored := count, overwritten := true }

structure Result where
  clients : Section
  adminAcls : Section
  kv : Section
  queues : Section
  deviceToApp : Section
  activityLog : LogSection
  rejectedOutsideAppFilter : List Str

def Result.new : Result :=
  ⟨.empty, .empty, .empty, .empty, .empty, ⟨0, false, false⟩, []⟩

structure State where
  store : Store
  result : Result

def Str.prepend (pre : Text) : Str → Str
  | .text t => .text (pre ++ t)
  | .surrogates units => .surrogates (pre.map Char.toNat ++ units)

-- One entry of an envelope: what the filter makes of it, under which name its record is
-- kept, whether there is one already, and what writing it does.
structure Task where
  refused : Except Exn Bool
  label : Str
  name : Except Exn Text
  present : Text → Store → Bool
  write : Text → Bool → Store → Except Exn Unit × Store
  note : Outcome → Result → Result

def Task.run (force : Bool) (task : Task) (s : State) : Except Exn Unit × State :=
  match task.refused with
  | .error exn => (.error exn, s)
  | .ok true =>
      (.ok (), { s with result := { s.result with
        rejectedOutsideAppFilter := s.result.rejectedOutsideAppFilter ++ [task.label] } })
  | .ok false =>
      match task.name with
      | .error exn => (.error exn, s)
      | .ok name =>
          let existed := task.present name s.store
          if existed ∧ ¬ force then (.ok (), { s with result := task.note .skipped s.result })
          else
            match task.write name existed s.store with
            | (.error exn, store) => (.error exn, { s with store := store })
            | (.ok (), store) =>
                (.ok (), ⟨store, task.note (if existed then .overwritten else .restored) s.result⟩)

section Writes

variable (cfg : Restoring)

-- A filter that is empty filters nothing.
def Restoring.refuses (belongs : Text → Except Exn Bool) : Except Exn Bool :=
  match cfg.appFilter with
  | some (c :: rest) => (belongs (c :: rest)).map (!·)
  | _ => .ok false

def Restoring.dumps (value : Value) : Except Exn Bytes :=
  match Json.dumpsValue (cfg.jsonDepth + 1) value with
  | .ok text => .ok (utf8 text)
  | .error e => .error (jsonExn e)

def andThen (first : Except Exn Unit × Store) (next : Store → Except Exn Unit × Store) :
    Except Exn Unit × Store :=
  match first with
  | (.ok (), s) => next s
  | stopped => stopped

-- A string of its own, by its key.
def setStr (key : Text) (value : Except Exn Bytes) (s : Store) : Except Exn Unit × Store :=
  match value with
  | .ok bytes => (.ok (), s.set key bytes)
  | .error exn => (.error exn, s)

-- A value and its flag. Without the flag a stale one is cleared.
def setRecord (key : Text) (record : KvRecord) (s : Store) : Store :=
  let s := s.set (kvKey key) record.value
  if record.encrypted then s.set (encKey key) (utf8 "1".toList) else s.delete [encKey key]

def encodeFields (fields : Dict Str Bytes) : Except Exn (List (Text × Bytes)) :=
  fields.entries.mapM fun field => field.1.encode.map fun name => (name, field.2)

-- XADD with the entry's own id.
def place (stream : Stream) (entry : StreamEntry) : Except Exn Stream :=
  if entry.fields.entries = [] then .error (.python "DataError".toList)
  else do
    let idText ← entry.id.encode
    let fields ← encodeFields entry.fields
    match (cfg.parseId idText).bind (·.resolve stream.last cfg.nowMs) with
    | some id =>
        if h : stream.last < id then .ok (stream.push id h fields)
        else .error (.python "ResponseError".toList)
    | none => .error (.python "ResponseError".toList)

def xadd (key : Text) (entry : StreamEntry) (s : Store) : Except Exn Unit × Store :=
  match place cfg (s.stream key) entry with
  | .ok stream => (.ok (), s.setStream key stream)
  | .error exn => (.error exn, s)

def refill (key : Text) (existed : Bool) (entries : List StreamEntry) (s : Store) :
    Except Exn Unit × Store :=
  batch (xadd cfg key) entries (if existed then s.delete [key] else s)

end Writes

section Tasks

variable (cfg : Restoring)

def activityLogKey : Text := "system:activity_log".toList

def restoreClient (cid : Str) (record : ClientRecord) : Task where
  refused := cfg.refuses (clientMatchesApp record.acl)
  label := cid.prepend "client:".toList
  name := cid.encode
  present name s := truthy (s.get (clientSecretKey name))
  write name _ s :=
    andThen (setStr (clientSecretKey name) (record.secret.encode.map utf8) s)
      (setStr (clientAclKey name) (cfg.dumps record.acl))
  note outcome result := { result with clients := result.clients.note cid outcome }

def restoreAdminAcl (user : Str) (acl : Value) : Task where
  refused := cfg.refuses (adminAclMatchesApp acl)
  label := user.prepend "admin_acls:".toList
  name := user.encode
  present name s := truthy (s.get (adminAclKey name))
  write name _ s := setStr (adminAclKey name) (cfg.dumps acl) s
  note outcome result := { result with adminAcls := result.adminAcls.note user outcome }

def restoreKv (key : Str) (record : KvRecord) : Task where
  refused := cfg.refuses fun app => .ok (kvKeyBelongsToApp key app)
  label := key.prepend "kv:".toList
  name := key.encode
  present name s := s.has (kvKey name)
  write name _ s := (.ok (), setRecord name record s)
  note outcome result := { result with kv := result.kv.note key outcome }

def restoreQueue (topic : Str) (entries : List StreamEntry) : Task where
  refused := cfg.refuses fun app => .ok (queueTopicBelongsToApp topic app)
  label := topic.prepend "q:".toList
  name := topic.encode
  present name s := s.has (queueKey name)
  write name existed s := refill cfg (queueKey name) existed entries s
  note outcome result := { result with queues := result.queues.note topic outcome }

def restoreDeviceToApp (cid app : Str) : Task where
  refused := cfg.refuses fun filter => .ok (app.isText filter)
  label := cid.prepend "device_to_app:".toList
  name := cid.encode
  present name s := truthy (s.get (deviceToAppKey name))
  write name _ s := setStr (deviceToAppKey name) (app.encode.map utf8) s
  note outcome result := { result with deviceToApp := result.deviceToApp.note cid outcome }

-- No filter here.
def restoreActivityLog (entries : List StreamEntry) : Task where
  refused := .ok false
  label := .text []
  name := .ok []
  present _ s := s.has activityLogKey
  write _ existed s := refill cfg activityLogKey existed entries s
  note outcome result := { result with activityLog := result.activityLog.note entries.length outcome }

end Tasks

-- The entries of an envelope, as the restore goes through them.
inductive Item
  | client (cid : Str) (record : ClientRecord)
  | adminAcl (user : Str) (acl : Value)
  | kv (key : Str) (record : KvRecord)
  | queue (topic : Str) (entries : List StreamEntry)
  | deviceToApp (cid app : Str)
  | activityLog (entries : List StreamEntry)

def BackupEnvelope.items (env : BackupEnvelope) : List Item :=
  env.clients.entries.map (fun entry => .client entry.1 entry.2) ++
  env.adminAcls.entries.map (fun entry => .adminAcl entry.1 entry.2) ++
  env.kv.entries.map (fun entry => .kv entry.1 entry.2) ++
  env.queues.entries.map (fun entry => .queue entry.1 entry.2) ++
  env.deviceToApp.entries.map (fun entry => .deviceToApp entry.1 entry.2) ++
  (env.activityLog.map Item.activityLog).toList

section Run

variable (cfg : Restoring)

def Item.task : Item → Task
  | .client cid record => restoreClient cfg cid record
  | .adminAcl user acl => restoreAdminAcl cfg user acl
  | .kv key record => restoreKv cfg key record
  | .queue topic entries => restoreQueue cfg topic entries
  | .deviceToApp cid app => restoreDeviceToApp cfg cid app
  | .activityLog entries => restoreActivityLog cfg entries

def restoreItem (item : Item) (s : State) : Except Exn Unit × State :=
  (item.task cfg).run cfg.forceOverwrite s

def restoreItems (items : List Item) (store : Store) : Except Exn Unit × State :=
  batch (restoreItem cfg) items ⟨store, .new⟩

def applyEnvelope (env : BackupEnvelope) (store : Store) : Except Exn Result × Store :=
  let ran := restoreItems cfg env.items store
  (ran.1.map fun _ => ran.2.result, ran.2.store)

end Run

-- A restore of the app `a` that may overwrite.
def Restoring.forced : Restoring where
  jsonDepth := 8
  parseId text := (StreamId.parse text).map .exact
  nowMs := 0
  forceOverwrite := true
  appFilter := some ['a']

end Stra2us.Backup
