import Stra2us.Backup.Records

namespace Stra2us.Backup

open Foundation Server

section Scan

-- What stands between the two ends of a key.
def between (pre suf key : Text) : Option Text :=
  if pre <+: key ∧ suf <:+ key.drop pre.length then
    some ((key.drop pre.length).take ((key.drop pre.length).length - suf.length))
  else none

theorem between_eq_some {pre suf key mid : Text} :
    between pre suf key = some mid ↔ key = pre ++ mid ++ suf := by
  constructor
  · intro h
    unfold between at h
    split_ifs at h with hends
    obtain ⟨⟨rest, rfl⟩, hsuf⟩ := hends
    rw [List.drop_left] at h hsuf
    obtain ⟨start, rfl⟩ := hsuf
    simp only [List.length_append, Nat.add_sub_cancel, List.take_left, Option.some.injEq] at h
    rw [← h, List.append_assoc]
  · rintro rfl
    unfold between
    rw [List.append_assoc, List.drop_left, if_pos ⟨List.prefix_append _ _, List.suffix_append _ _⟩]
    simp

variable (s : Store)

-- `KEYS pre*suf`, with the ends taken off, over the strings and over the streams.
def scanStrings (pre suf : Text) : List Text :=
  s.strings.keys.filterMap (between pre suf)

def scanStreams (pre : Text) : List Text :=
  s.streams.keys.filterMap (between pre [])

theorem mem_scanStrings {pre suf mid : Text} :
    mid ∈ scanStrings s pre suf ↔ ∃ raw, s.get (pre ++ mid ++ suf) = some raw := by
  have hkey : pre ++ mid ++ suf ∈ s.strings.keys ↔ ∃ raw, s.get (pre ++ mid ++ suf) = some raw := by
    rw [← AList.mem_keys, ← AList.lookup_isSome, Option.isSome_iff_exists]
    rfl
  rw [← hkey]
  unfold scanStrings
  rw [List.mem_filterMap]
  constructor
  · rintro ⟨key, hmem, hbetween⟩
    rwa [← between_eq_some.mp hbetween]
  · intro hmem
    exact ⟨_, hmem, between_eq_some.mpr rfl⟩

theorem mem_scanStreams {pre mid : Text} :
    mid ∈ scanStreams s pre ↔ ∃ stream, s.stream? (pre ++ mid) = some stream := by
  have hkey : pre ++ mid ∈ s.streams.keys ↔ ∃ stream, s.stream? (pre ++ mid) = some stream := by
    rw [← AList.mem_keys, ← AList.lookup_isSome, Option.isSome_iff_exists]
    rfl
  rw [← hkey]
  unfold scanStreams
  rw [List.mem_filterMap]
  constructor
  · rintro ⟨key, hmem, hbetween⟩
    have hsplit := between_eq_some.mp hbetween
    rw [List.append_nil] at hsplit
    rwa [← hsplit]
  · intro hmem
    exact ⟨_, hmem, between_eq_some.mpr (List.append_nil _).symm⟩

theorem nodup_filterMap_between {keys : List Text} (h : keys.Nodup) (pre suf : Text) :
    (keys.filterMap (between pre suf)).Nodup := by
  apply h.filterMap
  intro a b mid ha hb
  rw [between_eq_some.mp ha, between_eq_some.mp hb]

theorem nodup_scanStrings (pre suf : Text) : (scanStrings s pre suf).Nodup :=
  nodup_filterMap_between s.strings.keys_nodup pre suf

theorem nodup_scanStreams (pre : Text) : (scanStreams s pre).Nodup :=
  nodup_filterMap_between s.streams.keys_nodup pre []

end Scan

section Collect

variable (jsonDepth : Nat) (s : Store)

-- `_s`: what Redis answers, as text.
def decodeStr (raw : Option Bytes) : Except Exn Text :=
  match utf8Decode (raw.getD []) with
  | some text => .ok text
  | none => .error (.python "UnicodeDecodeError".toList)

-- Without an app every record is taken.
def wanted (app : Option Text) (belongs : Text → Except Exn Bool) : Except Exn Bool :=
  match app with
  | none => .ok true
  | some app => belongs app

def collectEach {β : Type} (collect : Text → Except Exn (Option β)) (names : List Text) :
    Except Exn (Dict Str β) := do
  let found ← names.mapM fun name => (collect name).map (·.map fun record => (Str.text name, record))
  .ok (Dict.ofList found.reduceOption)

def storedAcl : Option Bytes → Except Exn Value
  | some (byte :: rest) => do
      let text ← decodeStr (some (byte :: rest))
      (Json.loads jsonDepth text).mapError jsonExn
  | _ => .ok (.dict [])

def collectClient (app : Option Text) (clientId : Text) : Except Exn (Option ClientRecord) := do
  let secret ← decodeStr (s.get (clientSecretKey clientId))
  let acl ← storedAcl jsonDepth (s.get (clientAclKey clientId))
  let keep ← wanted app (clientMatchesApp acl)
  .ok (if keep then some ⟨.text secret, acl⟩ else none)

def collectClients (app : Option Text) : Except Exn (Dict Str ClientRecord) :=
  collectEach (collectClient jsonDepth s app) (scanStrings s "client:".toList ":secret".toList)

-- A row that is empty or no JSON is skipped.
def collectAdminAcl (app : Option Text) (user : Text) : Except Exn (Option Value) :=
  match s.get (adminAclKey user) with
  | some (byte :: rest) => do
      let text ← decodeStr (some (byte :: rest))
      match Json.loads jsonDepth text with
      | .error .value => .ok none
      | .error e => .error (jsonExn e)
      | .ok acl => do
          let keep ← wanted app (adminAclMatchesApp acl)
          .ok (if keep then some acl else none)
  | _ => .ok none

def collectAdminAcls (app : Option Text) : Except Exn (Dict Str Value) :=
  collectEach (collectAdminAcl jsonDepth s app) (scanStrings s "admin_acls:".toList [])

def encFlags : List Text :=
  (scanStrings s "kv:".toList []).filterMap (between [] ":enc".toList)

-- A key that ends like a flag is taken for one.
def collectKv (app : Option Text) : Dict Str KvRecord :=
  let values := (scanStrings s "kv:".toList []).filter fun key =>
    ¬ ":enc".toList <:+ key ∧ app.all fun app => kvKeyBelongsToApp (.text key) app
  Dict.ofList (values.map fun key =>
    (.text key, ⟨(s.get (kvKey key)).getD [], key ∈ encFlags s⟩))

def collectEntry (entry : Entry) : StreamEntry :=
  ⟨.text entry.id.text, Dict.ofList (entry.fields.map fun field => (.text field.1, field.2))⟩

def collectStream (key : Text) : List StreamEntry :=
  (s.stream key).entries.map collectEntry

def collectQueues (app : Option Text) : Dict Str (List StreamEntry) :=
  let topics := (scanStreams s "q:".toList).filter fun topic =>
    app.all fun app => queueTopicBelongsToApp (.text topic) app
  Dict.ofList (topics.map fun topic => (.text topic, collectStream s (queueKey topic)))

def collectDevice (app : Option Text) (clientId : Text) : Except Exn (Option Str) := do
  let val ← decodeStr (s.get (deviceToAppKey clientId))
  .ok (if app.all (val = ·) then some (.text val) else none)

def collectDeviceToApp (app : Option Text) : Except Exn (Dict Str Str) :=
  collectEach (collectDevice s app) (scanStrings s "device_to_app:".toList [])

-- The log of an app holds the entries of its clients.
def ownEntry (clients : Dict Str ClientRecord) (entry : StreamEntry) : Except Exn Bool := do
  let clientId ← decodeStr (some ((entry.fields.get? (.text "client_id".toList)).getD []))
  .ok (clients.get? (.text clientId)).isSome

def collectOwnLog (clients : Dict Str ClientRecord) (includeLogs : Bool) :
    Except Exn (Option (List StreamEntry)) :=
  if includeLogs then ((collectStream s activityLogKey).filterM (ownEntry clients)).map some
  else .ok none

def collectWholeEnvelope (includeLogs : Bool) (exportedAt : Text) : Except Exn BackupEnvelope := do
  let clients ← collectClients jsonDepth s none
  let adminAcls ← collectAdminAcls jsonDepth s none
  let deviceToApp ← collectDeviceToApp s none
  .ok ⟨.whole, .none, .str exportedAt, clients, adminAcls, collectKv s none, collectQueues s none,
    if includeLogs then some (collectStream s activityLogKey) else none, deviceToApp⟩

def collectPerAppEnvelope (app : Text) (includeLogs : Bool) (exportedAt : Text) :
    Except Exn BackupEnvelope := do
  let clients ← collectClients jsonDepth s (some app)
  let adminAcls ← collectAdminAcls jsonDepth s (some app)
  let deviceToApp ← collectDeviceToApp s (some app)
  let log ← collectOwnLog s clients includeLogs
  .ok ⟨.perApp, .str app, .str exportedAt, clients, adminAcls, collectKv s (some app),
    collectQueues s (some app), log, deviceToApp⟩

end Collect

section Rows

variable {jsonDepth : Nat} {s : Store} {app : Option Text} {acl : Value}

theorem bind_ok_iff {α β : Type} {x : Except Exn α} {f : α → Except Exn β} {b : β} :
    x >>= f = .ok b ↔ ∃ a, x = .ok a ∧ f a = .ok b := by
  cases x with
  | ok a => simp [bind, Except.bind]
  | error exn => simp [bind, Except.bind]

theorem mapError_ok_iff {ε α : Type} {f : ε → Exn} {x : Except ε α} {a : α} :
    x.mapError f = .ok a ↔ x = .ok a := by
  cases x with
  | ok a => simp [Except.mapError]
  | error e => simp [Except.mapError]

theorem decodeStr_ok_iff {raw : Bytes} {text : Text} :
    decodeStr (some raw) = .ok text ↔ utf8Decode raw = some text := by
  unfold decodeStr
  rw [Option.getD_some]
  cases utf8Decode raw with
  | some text => simp
  | none => simp

theorem loadRecord_ok_iff {raw : Bytes} : loadRecord jsonDepth raw = .ok acl ↔
    ∃ text, utf8Decode raw = some text ∧ Json.loads jsonDepth text = .ok acl := by
  unfold loadRecord
  cases utf8Decode raw with
  | none => simp
  | some text => simp

theorem not_loadRecord_nil : loadRecord jsonDepth [] ≠ .ok acl := by
  intro h
  have hempty : loadRecord jsonDepth [] = .error .value := by
    cases jsonDepth <;> rfl
  rw [hempty] at h
  cases h

-- An ACL that is not there, or empty, is read as one without permissions.
theorem storedAcl_ok_iff {raw? : Option Bytes} : storedAcl jsonDepth raw? = .ok acl ↔
    (∃ raw, raw? = some raw ∧ loadRecord jsonDepth raw = .ok acl) ∨
      ((raw? = none ∨ raw? = some []) ∧ acl = .dict []) := by
  cases raw? with
  | none => simp [storedAcl, eq_comm]
  | some raw =>
      cases raw with
      | nil =>
          simp only [storedAcl, Except.ok.injEq, Option.some.injEq, exists_eq_left',
            not_loadRecord_nil, false_or, or_true, true_and]
          exact eq_comm
      | cons byte rest =>
          simp only [storedAcl, bind_ok_iff, decodeStr_ok_iff, mapError_ok_iff, Option.some.injEq,
            exists_eq_left', loadRecord_ok_iff, reduceCtorEq, or_false, false_and]

theorem collectClient_ok_iff {clientId : Text} {found : Option ClientRecord} :
    collectClient jsonDepth s app clientId = .ok found ↔
      ∃ secret acl keep, decodeStr (s.get (clientSecretKey clientId)) = .ok secret ∧
        storedAcl jsonDepth (s.get (clientAclKey clientId)) = .ok acl ∧
        wanted app (clientMatchesApp acl) = .ok keep ∧
        (if keep then some ⟨.text secret, acl⟩ else none) = found := by
  simp only [collectClient, bind_ok_iff, Except.ok.injEq, exists_and_left]

theorem collectAdminAcl_ok_iff {user : Text} :
    collectAdminAcl jsonDepth s app user = .ok (some acl) ↔
      ∃ raw, s.get (adminAclKey user) = some raw ∧ loadRecord jsonDepth raw = .ok acl ∧
        wanted app (adminAclMatchesApp acl) = .ok true := by
  unfold collectAdminAcl
  cases s.get (adminAclKey user) with
  | none => simp
  | some raw =>
      cases raw with
      | nil => simp [not_loadRecord_nil]
      | cons byte rest =>
          simp only [bind_ok_iff, decodeStr_ok_iff, Option.some.injEq, exists_eq_left',
            loadRecord_ok_iff]
          constructor
          · rintro ⟨text, htext, hfound⟩
            cases hloads : Json.loads jsonDepth text with
            | ok found =>
                rw [hloads] at hfound
                obtain ⟨keep, hkeep, hsome⟩ := bind_ok_iff.mp hfound
                cases keep with
                | false => cases hsome
                | true =>
                    cases hsome
                    exact ⟨⟨text, htext, hloads⟩, hkeep⟩
            | error e =>
                rw [hloads] at hfound
                cases e <;> cases hfound
          · rintro ⟨⟨text, htext, hloads⟩, hkeep⟩
            refine ⟨text, htext, ?_⟩
            rw [hloads]
            exact bind_ok_iff.mpr ⟨true, hkeep, rfl⟩

-- A row with an ACL is read without failure exactly when the filter judges the ACL.
theorem collectAdminAcl_returns_iff {user : Text} {raw : Bytes}
    (hraw : s.get (adminAclKey user) = some raw) (hacl : loadRecord jsonDepth raw = .ok acl) :
    (∃ found, collectAdminAcl jsonDepth s app user = .ok found) ↔
      ∃ keep, wanted app (adminAclMatchesApp acl) = .ok keep := by
  cases raw with
  | nil => exact absurd hacl not_loadRecord_nil
  | cons byte rest =>
      obtain ⟨text, htext, hloads⟩ := loadRecord_ok_iff.mp hacl
      have hdecode := decodeStr_ok_iff.mpr htext
      unfold collectAdminAcl
      rw [hraw]
      dsimp only
      rw [hdecode]
      constructor
      · rintro ⟨found, hfound⟩
        obtain ⟨_, htext', hkeep⟩ := bind_ok_iff.mp hfound
        cases htext'
        rw [hloads] at hkeep
        obtain ⟨keep, hkeep, -⟩ := bind_ok_iff.mp hkeep
        exact ⟨keep, hkeep⟩
      · rintro ⟨keep, hkeep⟩
        refine ⟨if keep then some acl else none, bind_ok_iff.mpr ⟨text, rfl, ?_⟩⟩
        rw [hloads]
        exact bind_ok_iff.mpr ⟨keep, hkeep, rfl⟩

-- A row that the whole dump skips, the dump of an app skips too.
theorem collectAdminAcl_skips {user : Text} (h : collectAdminAcl jsonDepth s none user = .ok none) :
    collectAdminAcl jsonDepth s app user = .ok none := by
  unfold collectAdminAcl at h ⊢
  split at h
  · obtain ⟨text, htext, hfound⟩ := bind_ok_iff.mp h
    refine bind_ok_iff.mpr ⟨text, htext, ?_⟩
    cases hloads : Json.loads jsonDepth text with
    | ok acl =>
        rw [hloads] at hfound
        cases hfound
    | error e =>
        rw [hloads] at hfound
        cases e with
        | value => rfl
        | digits => cases hfound
        | recursion => cases hfound
  · rfl

end Rows

section Collected

variable {β : Type} {collect : Text → Except Exn (Option β)} {names : List Text}

-- What the collection of one name comes to, where it comes to anything.
def taken (collect : Text → Except Exn (Option β)) (name : Text) : Option (Str × β) :=
  match collect name with
  | .ok (some record) => some (.text name, record)
  | _ => none

theorem map_fst_filterMap_taken (collect : Text → Except Exn (Option β)) (names : List Text) :
    (names.filterMap (taken collect)).map Prod.fst =
      (names.filter fun name => (taken collect name).isSome).map Str.text := by
  induction names with
  | nil => rfl
  | cons name rest ih =>
      cases hcollect : collect name with
      | error exn => simp [taken, hcollect, ih]
      | ok found =>
          cases found with
          | none => simp [taken, hcollect, ih]
          | some record => simp [taken, hcollect, ih]

theorem collectEach_eq (hok : ∀ name ∈ names, ∃ found, collect name = .ok found) :
    collectEach collect names = .ok (Dict.ofList (names.filterMap (taken collect))) := by
  have hmap : names.mapM (fun name => (collect name).map
      (·.map fun record => (Str.text name, record))) = .ok (names.map (taken collect)) := by
    induction names with
    | nil => rfl
    | cons name rest ih =>
        obtain ⟨found, hfound⟩ := hok name (by simp)
        have hrest := ih fun n hn => hok n (List.mem_cons_of_mem _ hn)
        rw [List.mapM_cons, hrest, List.map_cons, taken, hfound]
        cases found <;> rfl
  have hreduce : (names.map (taken collect)).reduceOption = names.filterMap (taken collect) := by
    change (names.map (taken collect)).filterMap id = _
    rw [List.filterMap_map]
    rfl
  unfold collectEach
  rw [hmap, ← hreduce]
  rfl

theorem collectEach_ok {d : Dict Str β} (h : collectEach collect names = .ok d) :
    ∀ name ∈ names, ∃ found, collect name = .ok found := by
  have hmap : ∃ found, names.mapM (fun name => (collect name).map
      (·.map fun record => (Str.text name, record))) = .ok found := by
    unfold collectEach at h
    cases hmap : names.mapM (fun name => (collect name).map
        (·.map fun record => (Str.text name, record))) with
    | ok found => exact ⟨found, rfl⟩
    | error exn =>
        rw [hmap] at h
        cases h
  clear h
  induction names with
  | nil => simp
  | cons name rest ih =>
      obtain ⟨found, hfound⟩ := hmap
      rw [List.mapM_cons] at hfound
      cases hname : collect name with
      | error exn =>
          rw [hname] at hfound
          cases hfound
      | ok first =>
          rw [hname] at hfound
          intro n hn
          rcases List.mem_cons.mp hn with rfl | hn
          · exact ⟨first, hname⟩
          · refine ih ?_ n hn
            cases hrest : rest.mapM (fun name => (collect name).map
                (·.map fun record => (Str.text name, record))) with
            | ok others => exact ⟨others, rfl⟩
            | error exn =>
                rw [hrest] at hfound
                cases hfound

-- The entries of a section, in the order of the scan.
theorem entries_collectEach {d : Dict Str β} (hnodup : names.Nodup)
    (h : collectEach collect names = .ok d) : d.entries = names.filterMap (taken collect) := by
  have hd := (collectEach_eq (collectEach_ok h)).symm.trans h
  obtain rfl := Except.ok.inj hd
  apply Dict.entries_ofList
  rw [map_fst_filterMap_taken]
  exact (hnodup.filter _).map fun _ _ h => Str.text.inj h

theorem mem_collectEach {d : Dict Str β} (hnodup : names.Nodup)
    (h : collectEach collect names = .ok d) {key : Str} {record : β} :
    (key, record) ∈ d.entries ↔
      ∃ name ∈ names, key = .text name ∧ collect name = .ok (some record) := by
  rw [entries_collectEach hnodup h, List.mem_filterMap]
  refine exists_congr fun name => and_congr_right fun _ => ?_
  unfold taken
  cases hcollect : collect name with
  | error exn => simp
  | ok found =>
      cases found with
      | none => simp
      | some found =>
          simp only [Option.some.injEq, Prod.mk.injEq, Except.ok.injEq]
          constructor
          · rintro ⟨rfl, rfl⟩
            exact ⟨rfl, rfl⟩
          · rintro ⟨rfl, rfl⟩
            exact ⟨rfl, rfl⟩

end Collected

section Envelopes

variable {jsonDepth : Nat} {s : Store} {app exportedAt : Text} {includeLogs : Bool}
  {env : BackupEnvelope}

theorem collectWhole_ok_iff : collectWholeEnvelope jsonDepth s includeLogs exportedAt = .ok env ↔
    ∃ clients adminAcls deviceToApp, collectClients jsonDepth s none = .ok clients ∧
      collectAdminAcls jsonDepth s none = .ok adminAcls ∧
      collectDeviceToApp s none = .ok deviceToApp ∧
      BackupEnvelope.mk .whole .none (.str exportedAt) clients adminAcls (collectKv s none)
        (collectQueues s none) (if includeLogs then some (collectStream s activityLogKey) else none)
        deviceToApp = env := by
  simp only [collectWholeEnvelope, bind_ok_iff, Except.ok.injEq, exists_and_left]

theorem collectPerApp_ok_iff :
    collectPerAppEnvelope jsonDepth s app includeLogs exportedAt = .ok env ↔
      ∃ clients adminAcls deviceToApp log, collectClients jsonDepth s (some app) = .ok clients ∧
        collectAdminAcls jsonDepth s (some app) = .ok adminAcls ∧
        collectDeviceToApp s (some app) = .ok deviceToApp ∧
        collectOwnLog s clients includeLogs = .ok log ∧
        BackupEnvelope.mk .perApp (.str app) (.str exportedAt) clients adminAcls
          (collectKv s (some app)) (collectQueues s (some app)) log deviceToApp = env := by
  simp only [collectPerAppEnvelope, bind_ok_iff, Except.ok.injEq, exists_and_left]

end Envelopes

end Stra2us.Backup
