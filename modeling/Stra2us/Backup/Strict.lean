import Stra2us.Backup.Format
import Stra2us.Foundation.Batch
import Stra2us.Foundation.JsonDocument
import Stra2us.Foundation.Verdict

namespace Stra2us.Backup

open Foundation Server Verdict Json

-- An envelope keeps a document when nothing of the document is left out of it or stands in
-- it as something else.

section Kept

def NamesAmong (names : List String) (pairs : List (Value × Value)) : Prop :=
  ∀ pair ∈ pairs, ∃ name ∈ names, pair.1 = .str name.toList

def IsObject (value : Value) : Prop :=
  ∃ pairs, value = .dict pairs

-- Member by member, under the same keys and in the same order; an absent section has none.
def SectionKept {α : Type} (kept : Value → α → Prop) (value : Option Value) (d : Dict Str α) :
    Prop :=
  match value with
  | none => d.entries = []
  | some (.dict pairs) =>
      List.Forall₂ (fun pair entry => pair.1 = entry.1.toValue ∧ kept pair.2 entry.2) pairs d.entries
  | some _ => False

-- The bytes of which this is the base64.
def BytesKept (value : Value) (bytes : Bytes) : Prop :=
  value = .str (Base64.encode bytes)

def ClientKept (value : Value) (record : ClientRecord) : Prop :=
  ∃ pairs, value = .dict pairs ∧ NamesAmong ["secret", "acl"] pairs ∧
    Value.lookup pairs "secret".toList = some record.secret.toValue ∧
    record.acl = (Value.lookup pairs "acl".toList).getD (.dict []) ∧ IsObject record.acl

def AdminAclKept (value acl : Value) : Prop :=
  acl = value ∧ IsObject acl

def KvKept (value : Value) (record : KvRecord) : Prop :=
  ∃ pairs, value = .dict pairs ∧ NamesAmong ["value", "encrypted"] pairs ∧
    (∃ raw, Value.lookup pairs "value".toList = some raw ∧ BytesKept raw record.value) ∧
    .bool record.encrypted = (Value.lookup pairs "encrypted".toList).getD (.bool false)

def EntryKept (value : Value) (entry : StreamEntry) : Prop :=
  ∃ pairs, value = .dict pairs ∧ NamesAmong ["id", "fields"] pairs ∧
    Value.lookup pairs "id".toList = some entry.id.toValue ∧
    (Value.lookup pairs "fields".toList).isSome = true ∧
    SectionKept BytesKept (Value.lookup pairs "fields".toList) entry.fields

def StreamKept (value : Value) (entries : List StreamEntry) : Prop :=
  ∃ items, value = .list items ∧ List.Forall₂ EntryKept items entries

def LogKept (value : Option Value) (log : Option (List StreamEntry)) : Prop :=
  match value with
  | none | some .none => log = none
  | some value => ∃ entries, log = some entries ∧ StreamKept value entries

structure DataKept (data : List (Value × Value)) (env : BackupEnvelope) : Prop where
  names : NamesAmong ["clients", "admin_acls", "kv", "queues", "activity_log", "device_to_app"] data
  clients : SectionKept ClientKept (Value.lookup data "clients".toList) env.clients
  adminAcls : SectionKept AdminAclKept (Value.lookup data "admin_acls".toList) env.adminAcls
  kv : SectionKept KvKept (Value.lookup data "kv".toList) env.kv
  queues : SectionKept StreamKept (Value.lookup data "queues".toList) env.queues
  activityLog : LogKept (Value.lookup data "activity_log".toList) env.activityLog
  deviceToApp : SectionKept (fun value app => value = app.toValue)
    (Value.lookup data "device_to_app".toList) env.deviceToApp

structure HeaderKept (doc : List (Value × Value)) (env : BackupEnvelope) : Prop where
  names : NamesAmong ["stra2us_backup_version", "dump_kind", "app", "exported_at", "data"] doc
  version : Value.lookup doc "stra2us_backup_version".toList = some (.int 1)
  dumpKind : Value.lookup doc "dump_kind".toList = some env.dumpKind.toJson
  app : env.app = (Value.lookup doc "app".toList).getD .none
  exportedAt : env.exportedAt = (Value.lookup doc "exported_at".toList).getD (.str [])

def DocumentKept (value : Value) (env : BackupEnvelope) : Prop :=
  ∃ doc data, value = .dict doc ∧ HeaderKept doc env ∧
    Value.lookup doc "data".toList = some (.dict data) ∧ DataKept data env

end Kept

-- The parts of a document in the order in which they are read.
section Parts

def namesVerdict (names : List String) (pairs : List (Value × Value)) : Verdict :=
  if pairs.all fun pair => names.any fun name => isText pair.1 name.toList then .sound else .loose

def strVerdict : Value → Verdict
  | .str _ | .surrogates _ => .sound
  | _ => .loose

-- The decoder passes over what is no base64.
def base64Verdict : Value → Verdict
  | .str text =>
      match Base64.decode text with
      | some bytes => if text = Base64.encode bytes then .sound else .loose
      | none => .refused
  | _ => .refused

def aclVerdict : Option Value → Verdict
  | none | some (.dict _) => .sound
  | some _ => .loose

def flagVerdict : Option Value → Verdict
  | none | some (.bool _) => .sound
  | some _ => .loose

-- What counts as false is taken for an empty object, and anything else has no members to ask for.
def sectionVerdicts (member : Value → List Verdict) : Option Value → List Verdict
  | none => []
  | some (.dict pairs) => pairs.flatMap fun pair => member pair.2
  | some value => [if value.truthy then .broken else .loose]

def clientVerdicts : Value → List Verdict
  | .dict pairs =>
      match Value.lookup pairs "secret".toList with
      | some secret => [strVerdict secret, aclVerdict (Value.lookup pairs "acl".toList),
          namesVerdict ["secret", "acl"] pairs]
      | none => [.refused]
  | _ => [.refused]

def adminAclVerdicts : Value → List Verdict
  | .dict _ => [.sound]
  | _ => [.refused]

def kvVerdicts : Value → List Verdict
  | .dict pairs =>
      match Value.lookup pairs "value".toList with
      | some value => [base64Verdict value, flagVerdict (Value.lookup pairs "encrypted".toList),
          namesVerdict ["value", "encrypted"] pairs]
      | none => [.refused]
  | _ => [.refused]

def entryVerdicts : Value → List Verdict
  | .dict pairs =>
      match Value.lookup pairs "id".toList, Value.lookup pairs "fields".toList with
      | some id, some (.dict fields) =>
          (fields.flatMap fun field => [base64Verdict field.2]) ++
            [strVerdict id, namesVerdict ["id", "fields"] pairs]
      | _, _ => [.refused]
  | _ => [.refused]

def streamVerdicts : Value → List Verdict
  | .list items => items.flatMap entryVerdicts
  | _ => [.refused]

def logVerdicts : Option Value → List Verdict
  | none | some .none => []
  | some value => streamVerdicts value

def dataVerdicts (data : List (Value × Value)) : List Verdict :=
  sectionVerdicts clientVerdicts (Value.lookup data "clients".toList) ++
    (sectionVerdicts adminAclVerdicts (Value.lookup data "admin_acls".toList) ++
    (sectionVerdicts kvVerdicts (Value.lookup data "kv".toList) ++
    (sectionVerdicts streamVerdicts (Value.lookup data "queues".toList) ++
    (logVerdicts (Value.lookup data "activity_log".toList) ++
    (sectionVerdicts (fun value => [strVerdict value])
      (Value.lookup data "device_to_app".toList) ++
    [namesVerdict ["clients", "admin_acls", "kv", "queues", "activity_log", "device_to_app"]
      data])))))

def versionVerdict : Option Value → Verdict
  | some (.int n) => if n = 1 then .sound else .refused
  | some value => if isOne value then .loose else .refused
  | none => .refused

def dumpKindVerdict (kind app : Option Value) : Verdict :=
  match kind with
  | some (.str text) =>
      if text = "whole".toList then .sound
      else if text = "per-app".toList ∧ (app.bind Str.ofValue?).isSome then .sound
      else .refused
  | _ => .refused

def exportedAtVerdict : Option Value → Verdict
  | none | some (.str _) => .sound
  | some value => if value.truthy then .sound else .loose

def documentVerdicts : Value → List Verdict
  | .dict doc =>
      [versionVerdict (Value.lookup doc "stra2us_backup_version".toList),
        dumpKindVerdict (Value.lookup doc "dump_kind".toList) (Value.lookup doc "app".toList)] ++
      match Value.lookup doc "data".toList with
      | some (.dict data) =>
          [exportedAtVerdict (Value.lookup doc "exported_at".toList),
            namesVerdict ["stra2us_backup_version", "dump_kind", "app", "exported_at", "data"] doc] ++
          dataVerdicts data
      | _ => [.refused]
  | _ => [.refused]

end Parts

def meantFormat : ParseError → Bool
  | .format _ => true
  | .python _ => false

section Single

variable (strOf : Value → Str)

theorem stops_namesVerdict (names : List String) (pairs : List (Value × Value)) :
    (namesVerdict names pairs).stops = false := by
  unfold namesVerdict
  split_ifs <;> rfl

theorem stops_strVerdict (value : Value) : (strVerdict value).stops = false := by
  cases value <;> rfl

theorem stops_aclVerdict (value : Option Value) : (aclVerdict value).stops = false := by
  unfold aclVerdict
  split <;> rfl

theorem stops_flagVerdict (value : Option Value) : (flagVerdict value).stops = false := by
  unfold flagVerdict
  split <;> rfl

theorem stops_exportedAtVerdict (value : Option Value) :
    (exportedAtVerdict value).stops = false := by
  unfold exportedAtVerdict
  split
  · rfl
  · rfl
  · split_ifs <;> rfl

theorem isText_iff {value : Value} {text : Text} : isText value text = true ↔ value = .str text := by
  cases value with
  | str t => simp [isText]
  | _ => simp [isText]

theorem namesVerdict_eq_sound {names : List String} {pairs : List (Value × Value)} :
    namesVerdict names pairs = .sound ↔ NamesAmong names pairs := by
  simp [namesVerdict, NamesAmong, isText_iff]

theorem strVerdict_eq_sound {value : Value} :
    strVerdict value = .sound ↔ value = (pyStr strOf value).toValue := by
  have hother : ∀ s : Str, (∀ text, value ≠ .str text) → (∀ units, value ≠ .surrogates units) →
      value ≠ s.toValue := by
    intro s htext hunits
    cases s with
    | text text => exact htext text
    | surrogates units => exact hunits units
  cases value with
  | str text => exact ⟨fun _ => rfl, fun _ => rfl⟩
  | surrogates units => exact ⟨fun _ => rfl, fun _ => rfl⟩
  | _ => exact ⟨fun h => (nomatch h), fun h => absurd h (hother _ (by simp) (by simp))⟩

theorem aclVerdict_eq_sound {value : Option Value} :
    aclVerdict value = .sound ↔ orElse value (.dict []) = value.getD (.dict []) ∧
      IsObject (orElse value (.dict [])) := by
  cases value with
  | none => exact ⟨fun _ => ⟨rfl, [], rfl⟩, fun _ => rfl⟩
  | some value =>
      have hother : (∀ pairs, value ≠ .dict pairs) →
          ¬ (orElse (some value) (.dict []) = value ∧ IsObject (orElse (some value) (.dict []))) := by
        rintro hvalue ⟨hsame, pairs, hpairs⟩
        exact hvalue pairs (hsame.symm.trans hpairs)
      cases value with
      | dict pairs =>
          refine ⟨fun _ => ?_, fun _ => rfl⟩
          cases pairs with
          | nil => exact ⟨rfl, [], rfl⟩
          | cons pair rest => exact ⟨rfl, pair :: rest, rfl⟩
      | _ => exact ⟨fun h => (nomatch h), fun h => absurd h (hother (by simp))⟩

theorem flagVerdict_eq_sound {value : Option Value} : flagVerdict value = .sound ↔
    .bool (value.getD (.bool false)).truthy = value.getD (.bool false) := by
  cases value with
  | none => exact ⟨fun _ => rfl, fun _ => rfl⟩
  | some value =>
      cases value with
      | bool b => exact ⟨fun _ => rfl, fun _ => rfl⟩
      | _ => exact ⟨fun h => (nomatch h), fun h => (nomatch h)⟩

theorem fares_b64decode (place : Place) (value : Value) :
    Fares meantFormat [base64Verdict value] (BytesKept value) (b64decode place value) := by
  cases value with
  | str text =>
      dsimp only [b64decode, base64Verdict]
      cases hdecode : Base64.decode text with
      | none => exact rfl
      | some bytes =>
          dsimp only
          by_cases hexact : text = Base64.encode bytes
          · simp [hexact, BytesKept, stops]
          · simp [hexact, BytesKept, stops]
  | _ => exact rfl

theorem fares_client (clientId : Str) (value : Value) :
    Fares meantFormat (clientVerdicts value) (ClientKept value)
      (clientFromJson strOf clientId value) := by
  cases value with
  | dict pairs =>
      dsimp only [clientFromJson, clientVerdicts]
      cases hsecret : Value.lookup pairs "secret".toList with
      | none => exact rfl
      | some secret =>
          dsimp only
          rw [fares_ok]
          refine ⟨by simp [stops_strVerdict, stops_aclVerdict, stops_namesVerdict], ?_⟩
          simp only [allSound_cons, allSound_nil, and_true, strVerdict_eq_sound strOf,
            aclVerdict_eq_sound, namesVerdict_eq_sound]
          constructor
          · rintro ⟨_, hpairs, hnames, hfound, hacl, hobject⟩
            cases hpairs
            rw [hsecret] at hfound
            exact ⟨Option.some.inj hfound, ⟨hacl, hobject⟩, hnames⟩
          · rintro ⟨hfound, ⟨hacl, hobject⟩, hnames⟩
            exact ⟨pairs, rfl, hnames, hsecret.trans (congrArg some hfound), hacl, hobject⟩
  | _ => exact rfl

theorem fares_adminAcl (user : Str) (value : Value) :
    Fares meantFormat (adminAclVerdicts value) (AdminAclKept value) (adminAclFromJson user value) := by
  cases value with
  | dict pairs => exact ⟨rfl, fun _ => by simp [adminAclVerdicts], fun _ => ⟨rfl, pairs, rfl⟩⟩
  | _ => exact rfl

theorem fares_kv (key : Str) (value : Value) :
    Fares meantFormat (kvVerdicts value) (KvKept value) (kvFromJson key value) := by
  cases value with
  | dict pairs =>
      dsimp only [kvFromJson, kvVerdicts]
      cases hvalue : Value.lookup pairs "value".toList with
      | none => exact rfl
      | some raw =>
          refine (fares_b64decode (.kvValue key) raw).finish (g := fun bytes => KvRecord.mk bytes
            ((Value.lookup pairs "encrypted".toList).getD (.bool false)).truthy)
            (by simp [stops_flagVerdict, stops_namesVerdict]) fun bytes _ => ?_
          simp only [allSound_cons, allSound_nil, and_true, flagVerdict_eq_sound,
            namesVerdict_eq_sound]
          constructor
          · rintro ⟨_, hpairs, hnames, ⟨found, hfound, hbytes⟩, hflag⟩
            cases hpairs
            rw [hvalue] at hfound
            obtain rfl := Option.some.inj hfound
            exact ⟨hbytes, hflag, hnames⟩
          · rintro ⟨hbytes, hflag, hnames⟩
            exact ⟨pairs, rfl, hnames, ⟨raw, hvalue, hbytes⟩, hflag⟩
  | _ => exact rfl

end Single

section Members

variable {α : Type} {kept : Value → α → Prop} {member : Value → List Verdict}
  {parse : Str → Value → Except ParseError α} {pairs : List (Value × Value)}

theorem ofValue?_of_isString {value : Value} (h : IsString value) :
    ∃ key : Str, Str.ofValue? value = some key ∧ value = key.toValue := by
  cases value with
  | str text => exact ⟨.text text, rfl, rfl⟩
  | surrogates units => exact ⟨.surrogates units, rfl, rfl⟩
  | _ => exact absurd h id

theorem toValue_injective : Function.Injective Str.toValue := by
  intro a b h
  have hback := congrArg Str.ofValue? h
  simpa using hback

-- An object's members are all there under string keys.
theorem eq_stringKeyed (hkeys : ∀ pair ∈ pairs, IsString pair.1) :
    pairs = (stringKeyed pairs).map fun item => (item.1.toValue, item.2) := by
  induction pairs with
  | nil => rfl
  | cons pair rest ih =>
      obtain ⟨key, hkey, hvalue⟩ := ofValue?_of_isString (hkeys pair (by simp))
      have hrest := ih fun p hp => hkeys p (List.mem_cons_of_mem _ hp)
      have hcons : stringKeyed (pair :: rest) = (key, pair.2) :: stringKeyed rest := by
        simp [stringKeyed, hkey]
      rw [hcons, List.map_cons, ← hrest, ← hvalue]

variable (member) in
theorem fares_parseEach (hkeys : ∀ pair ∈ pairs, IsString pair.1)
    (hdistinct : (pairs.map Prod.fst).Nodup)
    (h : ∀ key, ∀ pair ∈ pairs, Fares meantFormat (member pair.2) (kept pair.2) (parse key pair.2)) :
    Fares meantFormat (pairs.flatMap fun pair => member pair.2)
      (SectionKept kept (some (.dict pairs))) (parseEach parse (stringKeyed pairs)) := by
  obtain ⟨items, hitems⟩ : ∃ items, stringKeyed pairs = items := ⟨_, rfl⟩
  obtain rfl : pairs = items.map fun item => (item.1.toValue, item.2) :=
    hitems ▸ eq_stringKeyed hkeys
  have hnodup : (items.map Prod.fst).Nodup := by
    rw [List.map_map] at hdistinct
    exact List.Nodup.of_map Str.toValue (by rwa [List.map_map])
  have heach : ∀ item ∈ items, Fares meantFormat (member item.2)
      (fun entry : Str × α => item.1 = entry.1 ∧ kept item.2 entry.2)
      ((parse item.1 item.2).map fun value => (item.1, value)) := by
    intro item hitem
    refine (h item.1 (item.1.toValue, item.2) (List.mem_map_of_mem hitem)).map fun value _ => ?_
    simp
  have hread : parseEach parse items = (items.mapM fun item =>
      (parse item.1 item.2).map fun value => (item.1, value)).map Dict.ofList := rfl
  rw [hitems, hread, List.flatMap_map]
  refine (Fares.mapM heach).map fun entries hentries => ?_
  have hkeysEq : entries.map Prod.fst = items.map Prod.fst := by
    have hall := mapM_ok_iff.mp hentries
    clear hentries hread hitems heach h hkeys hdistinct hnodup
    induction hall with
    | nil => rfl
    | @cons item entry items entries hentry _ ih =>
        rw [List.map_cons, List.map_cons, ih]
        cases hparse : parse item.1 item.2 with
        | error e =>
            rw [hparse] at hentry
            cases hentry
        | ok value =>
            rw [hparse] at hentry
            obtain rfl := Except.ok.inj hentry
            rfl
  rw [SectionKept, Dict.entries_ofList (by rw [hkeysEq]; exact hnodup), List.forall₂_map_left_iff]
  simp only [toValue_injective.eq_iff]

-- So does a section of the document that is an object.
theorem fares_section {value : Option Value} (hdoc : ∀ v, value = some v → ∃ depth, Document depth v)
    (h : ∀ key pairs, ∀ pair ∈ pairs, value = some (.dict pairs) →
      Fares meantFormat (member pair.2) (kept pair.2) (parse key pair.2)) :
    Fares meantFormat (sectionVerdicts member value) (SectionKept kept value) (do
      let items ← itemsOf value
      parseEach parse items) := by
  cases value with
  | none => exact ⟨rfl, fun _ => allSound_nil, fun _ => rfl⟩
  | some value =>
      have hother : (∀ pairs, value ≠ .dict pairs) → Fares meantFormat
          [if value.truthy then .broken else .loose] (fun _ : Dict Str α => False) (do
            let items ← itemsOf (some value)
            parseEach parse items) := by
        intro hvalue
        cases htruthy : value.truthy with
        | true =>
            have herror : itemsOf (some value) = .error (.python "AttributeError".toList) := by
              simp only [itemsOf, orElse, htruthy, ite_true]
            rw [herror]
            exact rfl
        | false =>
            have hempty : itemsOf (some value) = .ok [] := by
              simp [itemsOf, orElse, htruthy, stringKeyed]
            rw [hempty]
            exact ⟨rfl, by simp⟩
      cases value with
      | dict pairs =>
          obtain ⟨depth, hdocument⟩ := hdoc _ rfl
          obtain ⟨-, hkeys, hdistinct, -⟩ := hdocument.pairs
          have hitems : itemsOf (some (.dict pairs)) = .ok (stringKeyed pairs) := by
            cases pairs with
            | nil => rfl
            | cons pair rest => rfl
          rw [hitems]
          exact fares_parseEach member hkeys hdistinct fun key pair hpair => h key pairs pair hpair rfl
      | _ => exact hother (by simp)

end Members

section Streams

variable (strOf : Value → Str)

theorem lookup_mem {pairs : List (Value × Value)} {name : Text} {value : Value}
    (h : Value.lookup pairs name = some value) : ∃ pair ∈ pairs, pair.2 = value := by
  induction pairs with
  | nil => cases h
  | cons pair rest ih =>
      have hrest : Value.lookup rest name = some value → ∃ p ∈ pair :: rest, p.2 = value := by
        intro hfound
        obtain ⟨p, hp, hvalue⟩ := ih hfound
        exact ⟨p, List.mem_cons_of_mem _ hp, hvalue⟩
      obtain ⟨key, found⟩ := pair
      cases key with
      | str text =>
          rw [Value.lookup_str_cons] at h
          by_cases hname : text = name
          · rw [if_pos hname] at h
            exact ⟨(.str text, found), by simp, Option.some.inj h⟩
          · rw [if_neg hname] at h
            exact hrest h
      | _ => exact hrest h

theorem fares_stream {depth : Nat} (place : Place) {value : Value} (hdoc : Document depth value) :
    Fares meantFormat (entryVerdicts value) (EntryKept value) (streamFromJson strOf place value) := by
  cases value with
  | dict pairs =>
      dsimp only [streamFromJson, entryVerdicts]
      cases hid : Value.lookup pairs "id".toList with
      | none => exact rfl
      | some id =>
          cases hfields : Value.lookup pairs "fields".toList with
          | none => exact rfl
          | some raw =>
              cases raw with
              | dict fields =>
                  obtain ⟨inner, -, -, hmembers⟩ := hdoc.pairs
                  obtain ⟨pair, hpair, hraw⟩ := lookup_mem hfields
                  obtain ⟨-, hkeys, hdistinct, -⟩ := (hraw ▸ hmembers pair hpair).pairs
                  have hread : Fares meantFormat (fields.flatMap fun pair => [base64Verdict pair.2])
                      (SectionKept BytesKept (some (.dict fields)))
                      (parseEach (fun name value => b64decode (.field place name) value)
                        (stringKeyed fields)) :=
                    fares_parseEach (fun value => [base64Verdict value]) hkeys hdistinct
                      fun key pair _ => fares_b64decode _ pair.2
                  refine hread.finish (g := fun fields => StreamEntry.mk (pyStr strOf id) fields)
                    (by simp [stops_strVerdict, stops_namesVerdict]) fun bytes _ => ?_
                  simp only [allSound_cons, allSound_nil, and_true, strVerdict_eq_sound strOf,
                    namesVerdict_eq_sound]
                  constructor
                  · rintro ⟨_, hpairs, hnames, hfound, -, hkept⟩
                    cases hpairs
                    rw [hid] at hfound
                    rw [hfields] at hkept
                    exact ⟨hkept, Option.some.inj hfound, hnames⟩
                  · rintro ⟨hkept, hfound, hnames⟩
                    refine ⟨pairs, rfl, hnames, hid.trans (congrArg some hfound), ?_, ?_⟩
                    · rw [hfields]
                      rfl
                    · rw [hfields]
                      exact hkept
              | _ => exact rfl
  | _ => exact rfl

theorem fares_entries {depth : Nat} (place : Place) {items : List Value}
    (hdoc : Document depth (.list items)) :
    Fares meantFormat (streamVerdicts (.list items)) (StreamKept (.list items))
      (items.mapM (streamFromJson strOf place)) := by
  obtain ⟨inner, hitems⟩ := hdoc.items
  have hread : Fares meantFormat (streamVerdicts (.list items)) (List.Forall₂ EntryKept items)
      (items.mapM (streamFromJson strOf place)) :=
    Fares.mapM fun item hitem => fares_stream strOf place (hitems item hitem)
  have hsame : StreamKept (.list items) = List.Forall₂ EntryKept items := by
    funext entries
    refine propext ⟨?_, fun h => ⟨items, rfl, h⟩⟩
    rintro ⟨_, hlist, hkept⟩
    cases hlist
    exact hkept
  rw [hsame]
  exact hread

theorem fares_queue {depth : Nat} (topic : Str) {value : Value} (hdoc : Document depth value) :
    Fares meantFormat (streamVerdicts value) (StreamKept value) (queueFromJson strOf topic value) := by
  cases value with
  | list items => exact fares_entries strOf (.queue topic) hdoc
  | _ => exact rfl

theorem fares_log {value : Option Value} (hdoc : ∀ v, value = some v → ∃ depth, Document depth v) :
    Fares meantFormat (logVerdicts value) (LogKept value) (logFromJson strOf value) := by
  cases value with
  | none => exact ⟨rfl, fun _ => allSound_nil, fun _ => rfl⟩
  | some value =>
      cases value with
      | none => exact ⟨rfl, fun _ => allSound_nil, fun _ => rfl⟩
      | list items =>
          obtain ⟨depth, hdocument⟩ := hdoc _ rfl
          refine (fares_entries strOf .activityLog hdocument).map (g := some) fun entries _ => ?_
          simp [LogKept]
      | _ => exact rfl

end Streams

section Documents

variable (strOf : Value → Str)

theorem map_eq_ok {ε α β : Type} {f : α → β} {read : Except ε α} {b : β}
    (h : f <$> read = .ok b) : ∃ a, read = .ok a ∧ f a = b := by
  cases read with
  | error e => cases h
  | ok a => exact ⟨a, rfl, Except.ok.inj h⟩

theorem fares_refused {α : Type} {kept : α → Prop} (before : List Verdict)
    (h : firstStop before = none) (after : List Verdict) (e : FormatError) :
    Fares meantFormat (before ++ .refused :: after) kept (.error (.format e) : Except ParseError α) := by
  rw [fares_error, firstStop_append, h]
  rfl

-- A section of the data, read.
def sectionFromJson {α : Type} (parse : Str → Value → Except ParseError α)
    (data : List (Value × Value)) (name : String) : Except ParseError (Dict Str α) := do
  let items ← itemsOf (Value.lookup data name.toList)
  parseEach parse items

theorem dataFromJson_eq (kind : DumpKind) (app exportedAt : Value) (data : List (Value × Value)) :
    dataFromJson strOf kind app exportedAt data =
      (fun found => ⟨kind, app, exportedAt, found.1, found.2.1, found.2.2.1,
        found.2.2.2.1, found.2.2.2.2.1, found.2.2.2.2.2⟩) <$>
        both (sectionFromJson (clientFromJson strOf) data "clients")
          (both (sectionFromJson adminAclFromJson data "admin_acls")
          (both (sectionFromJson kvFromJson data "kv")
          (both (sectionFromJson (queueFromJson strOf) data "queues")
          (both (logFromJson strOf (Value.lookup data "activity_log".toList))
          (sectionFromJson (fun _ value => .ok (pyStr strOf value)) data "device_to_app"))))) := by
  unfold dataFromJson sectionFromJson both
  simp only [bind_assoc, pure_bind, map_eq_pure_bind]
  rfl

theorem dataFromJson_header {kind : DumpKind} {app exportedAt : Value}
    {data : List (Value × Value)} {env : BackupEnvelope}
    (h : dataFromJson strOf kind app exportedAt data = .ok env) :
    env.dumpKind = kind ∧ env.app = app ∧ env.exportedAt = exportedAt := by
  rw [dataFromJson_eq] at h
  obtain ⟨found, -, rfl⟩ := map_eq_ok h
  exact ⟨rfl, rfl, rfl⟩

theorem fares_data {depth : Nat} (kind : DumpKind) (app exportedAt : Value)
    {data : List (Value × Value)} (hdoc : Document depth (.dict data)) :
    Fares meantFormat (dataVerdicts data) (DataKept data)
      (dataFromJson strOf kind app exportedAt data) := by
  obtain ⟨inner, -, -, hmembers⟩ := hdoc.pairs
  have hfound (name : String) : ∀ v, Value.lookup data name.toList = some v →
      ∃ depth, Document depth v := by
    intro v hv
    obtain ⟨pair, hpair, rfl⟩ := lookup_mem hv
    exact ⟨inner, hmembers pair hpair⟩
  have hclients := fares_section (hfound "clients")
    fun key _ pair _ _ => fares_client strOf key pair.2
  have hadmins := fares_section (hfound "admin_acls")
    fun key _ pair _ _ => fares_adminAcl key pair.2
  have hkv := fares_section (hfound "kv") fun key _ pair _ _ => fares_kv key pair.2
  have hqueues : Fares meantFormat
      (sectionVerdicts streamVerdicts (Value.lookup data "queues".toList))
      (SectionKept StreamKept (Value.lookup data "queues".toList))
      (sectionFromJson (queueFromJson strOf) data "queues") :=
    fares_section (hfound "queues") fun key pairs pair hpair hvalue => by
      obtain ⟨depth, hdocument⟩ := hfound "queues" _ hvalue
      obtain ⟨inner, -, -, hall⟩ := hdocument.pairs
      exact fares_queue strOf key (hall pair hpair)
  have hlog := fares_log strOf (hfound "activity_log")
  have hdevices : Fares meantFormat
      (sectionVerdicts (fun value => [strVerdict value])
        (Value.lookup data "device_to_app".toList))
      (SectionKept (fun value app => value = app.toValue)
        (Value.lookup data "device_to_app".toList))
      (sectionFromJson (fun _ value => .ok (pyStr strOf value)) data "device_to_app") :=
    fares_section (hfound "device_to_app") fun key _ pair _ _ => by
      refine ⟨by simp [stops_strVerdict], ?_⟩
      simp [strVerdict_eq_sound strOf]
  have hall := hclients.both (hadmins.both (hkv.both (hqueues.both (hlog.both hdevices))))
  rw [dataFromJson_eq]
  have hsilent : firstStop [namesVerdict ["clients", "admin_acls", "kv", "queues",
      "activity_log", "device_to_app"] data] = none := by
    simp [stops_namesVerdict]
  have hfinish : Fares meantFormat _ (DataKept data) _ :=
    hall.finish (g := fun found => ⟨kind, app, exportedAt, found.1, found.2.1, found.2.2.1,
      found.2.2.2.1, found.2.2.2.2.1, found.2.2.2.2.2⟩) hsilent fun found _ => by
      simp only [allSound_cons, allSound_nil, and_true, namesVerdict_eq_sound]
      constructor
      · rintro ⟨hnames, hclients, hadmins, hkv, hqueues, hlog, hdevices⟩
        exact ⟨⟨hclients, hadmins, hkv, hqueues, hlog, hdevices⟩, hnames⟩
      · rintro ⟨⟨hclients, hadmins, hkv, hqueues, hlog, hdevices⟩, hnames⟩
        exact ⟨hnames, hclients, hadmins, hkv, hqueues, hlog, hdevices⟩
  simp only [List.append_assoc] at hfinish
  exact hfinish

theorem versionVerdict_of_isOne {version : Option Value}
    (h : isOne (version.getD .none) = true) : (versionVerdict version).stops = false ∧
      (versionVerdict version = .sound ↔ version = some (.int 1)) := by
  cases version with
  | none => cases h
  | some value =>
      cases value with
      | int n =>
          have hone : n = 1 := by simpa [isOne] using h
          rw [hone]
          exact ⟨rfl, fun _ => rfl, fun _ => rfl⟩
      | bool b =>
          have hloose : versionVerdict (some (.bool b)) = .loose := if_pos h
          rw [hloose]
          exact ⟨rfl, fun hsound => (nomatch hsound), fun hsome => (nomatch hsome)⟩
      | float x =>
          have hloose : versionVerdict (some (.float x)) = .loose := if_pos h
          rw [hloose]
          exact ⟨rfl, fun hsound => (nomatch hsound), fun hsome => (nomatch hsome)⟩
      | _ => cases h

theorem versionVerdict_of_not_isOne {version : Option Value}
    (h : isOne (version.getD .none) = false) : versionVerdict version = .refused := by
  cases version with
  | none => rfl
  | some value =>
      have hrefused : (if isOne value = true then Verdict.loose else .refused) = .refused :=
        if_neg (by simpa using h)
      cases value with
      | int n =>
          have hne : n ≠ 1 := by simpa [isOne] using h
          exact if_neg hne
      | _ => exact hrefused

theorem exportedAtVerdict_eq_sound {value : Option Value} :
    exportedAtVerdict value = .sound ↔ orElse value (.str []) = value.getD (.str []) := by
  cases value with
  | none => exact ⟨fun _ => rfl, fun _ => rfl⟩
  | some value =>
      have hother : (∀ text, value ≠ .str text) →
          ((if value.truthy then Verdict.sound else .loose) = .sound ↔
            orElse (some value) (.str []) = value) := by
        intro hvalue
        cases htruthy : value.truthy with
        | true => simp [orElse, htruthy]
        | false => simpa [orElse, htruthy] using (hvalue []).symm
      cases value with
      | str text =>
          refine ⟨fun _ => ?_, fun _ => rfl⟩
          cases text with
          | nil => rfl
          | cons c rest => rfl
      | _ => exact hother (by simp)

theorem dumpKind_cases (kind : Option Value) :
    (∃ found : DumpKind, kind = some found.toJson ∧
      dumpKindFromJson (kind.getD .none) = .ok found) ∨
    (∃ e, dumpKindFromJson (kind.getD .none) = .error (.format e)) ∧
      ∀ app, dumpKindVerdict kind app = .refused := by
  by_cases hwhole : kind = some (.str "whole".toList)
  · subst hwhole
    exact .inl ⟨.whole, rfl, rfl⟩
  · by_cases hper : kind = some (.str "per-app".toList)
    · subst hper
      exact .inl ⟨.perApp, rfl, rfl⟩
    · refine .inr ⟨⟨.dumpKind (kind.getD .none), ?_⟩, fun app => ?_⟩
      · have hnot (name : Text) (h : kind ≠ some (.str name)) :
            ¬ isText (kind.getD .none) name = true := by
          rw [isText_iff]
          intro hname
          cases kind with
          | none => cases hname
          | some value => exact h (congrArg some hname)
        rw [dumpKindFromJson, if_neg (hnot _ hwhole), if_neg (hnot _ hper)]
      · unfold dumpKindVerdict
        split
        · rename_i text
          have hne : text ≠ "whole".toList := fun heq => hwhole (by rw [heq])
          have hne' : text ≠ "per-app".toList := fun heq => hper (by rw [heq])
          rw [if_neg hne, if_neg (fun h => hne' h.1)]
        · rfl

theorem dumpKindVerdict_toJson (kind : DumpKind) (app : Option Value) :
    dumpKindVerdict (some kind.toJson) app =
      if kind = .perApp ∧ (Str.ofValue? (app.getD .none)).isNone = true then .refused
      else .sound := by
  have happ : (app.bind Str.ofValue?).isSome = (Str.ofValue? (app.getD .none)).isSome := by
    cases app with
    | none => rfl
    | some value => rfl
  cases kind with
  | whole => rfl
  | perApp =>
      have hne : "per-app".toList ≠ "whole".toList := by decide
      simp only [dumpKindVerdict, DumpKind.toJson, happ, true_and, if_neg hne]
      cases Str.ofValue? (app.getD .none) with
      | none => rfl
      | some name => rfl

-- The data, when the members in front of it stop nothing.
theorem fares_header {depth : Nat} {doc data : List (Value × Value)} {kind : DumpKind}
    (hdoc : Document depth (.dict doc)) (hdata : Value.lookup doc "data".toList = some (.dict data))
    (hkind : Value.lookup doc "dump_kind".toList = some kind.toJson)
    (hsilent : firstStop
      [versionVerdict (Value.lookup doc "stra2us_backup_version".toList), .sound] = none)
    (hversion : versionVerdict (Value.lookup doc "stra2us_backup_version".toList) = .sound ↔
      Value.lookup doc "stra2us_backup_version".toList = some (.int 1)) :
    Fares meantFormat ([versionVerdict (Value.lookup doc "stra2us_backup_version".toList), .sound] ++
        ([exportedAtVerdict (Value.lookup doc "exported_at".toList),
          namesVerdict ["stra2us_backup_version", "dump_kind", "app", "exported_at", "data"] doc] ++
        dataVerdicts data)) (DocumentKept (.dict doc))
      (dataFromJson strOf kind ((Value.lookup doc "app".toList).getD .none)
        (orElse (Value.lookup doc "exported_at".toList) (.str [])) data) := by
  obtain ⟨inner, -, -, hmembers⟩ := hdoc.pairs
  obtain ⟨pair, hpair, hvalue⟩ := lookup_mem hdata
  have hread := fares_data strOf kind ((Value.lookup doc "app".toList).getD .none)
    (orElse (Value.lookup doc "exported_at".toList) (.str [])) (hvalue ▸ hmembers pair hpair)
  rw [← List.append_assoc]
  refine hread.behind ?_ fun env henv => ?_
  · rw [firstStop_append, hsilent, firstStop_cons, stops_exportedAtVerdict, firstStop_cons,
      stops_namesVerdict]
    rfl
  · obtain ⟨hkindOf, happ, hexported⟩ := dataFromJson_header strOf henv
    simp only [List.cons_append, List.nil_append, allSound_cons, allSound_nil, and_true, true_and,
      hversion, exportedAtVerdict_eq_sound, namesVerdict_eq_sound]
    constructor
    · rintro ⟨_, found, hdoc, hheader, hfound, hkept⟩
      cases hdoc
      rw [hdata] at hfound
      cases hfound
      exact ⟨⟨hheader.version, hexported.symm.trans hheader.exportedAt, hheader.names⟩, hkept⟩
    · rintro ⟨⟨hversion, hexact, hnames⟩, hkept⟩
      exact ⟨doc, data, rfl, ⟨hnames, hversion, by rw [hkind, hkindOf], happ,
        hexported.trans hexact⟩, hdata, hkept⟩

theorem fares_fromJson {depth : Nat} {doc : Value} (hdoc : Document depth doc) :
    Fares meantFormat (documentVerdicts doc) (DocumentKept doc) (BackupEnvelope.fromJson strOf doc) := by
  cases doc with
  | dict doc =>
      simp only [documentVerdicts, BackupEnvelope.fromJson]
      cases hone : isOne ((Value.lookup doc "stra2us_backup_version".toList).getD .none) with
      | false =>
          rw [versionVerdict_of_not_isOne hone]
          exact rfl
      | true =>
          obtain ⟨hversionStop, hversion⟩ := versionVerdict_of_isOne hone
          have hpass : ¬ ¬ (true = true) := by simp
          have hversionSilent : firstStop
              [versionVerdict (Value.lookup doc "stra2us_backup_version".toList)] = none := by
            rw [firstStop_cons, hversionStop]
            rfl
          have hversionSound : firstStop
              [versionVerdict (Value.lookup doc "stra2us_backup_version".toList), .sound] = none := by
            rw [firstStop_cons, hversionStop]
            rfl
          rw [if_neg hpass]
          obtain ⟨kind, hkind, hread⟩ | ⟨⟨e, hread⟩, hrefused⟩ :=
            dumpKind_cases (Value.lookup doc "dump_kind".toList)
          · rw [hread, hkind, dumpKindVerdict_toJson]
            change Fares _ _ _ (if _ then _ else _)
            by_cases hname : kind = .perApp ∧
                (Str.ofValue? ((Value.lookup doc "app".toList).getD .none)).isNone = true
            · rw [if_pos hname, if_pos hname]
              exact fares_refused [_] hversionSilent _ _
            · rw [if_neg hname, if_neg hname]
              cases hdata : Value.lookup doc "data".toList with
              | none => exact fares_refused [_, _] hversionSound _ _
              | some value =>
                  cases value with
                  | dict data =>
                      exact fares_header strOf hdoc hdata hkind hversionSound hversion
                  | _ => exact fares_refused [_, _] hversionSound _ _
          · rw [hread, hrefused]
            exact fares_refused [_] hversionSilent _ _
  | _ => exact rfl

-- Parsing fails as it should or keeps the document exactly when a part that is refused comes
-- before any that breaks the parser, or every part is as documented.
theorem fromJson_strict_iff {depth : Nat} {doc : Value} (hdoc : Document depth doc) :
    Strict meantFormat (DocumentKept doc) (BackupEnvelope.fromJson strOf doc) ↔
      firstStop (documentVerdicts doc) = some .refused ∨ AllSound (documentVerdicts doc) :=
  (fares_fromJson strOf hdoc).strict_iff

end Documents

section Dumps

theorem document_object {depth : Nat} {members : List (Text × Value)}
    (hdistinct : (members.map Prod.fst).Nodup) (h : ∀ m ∈ members, Document depth m.2) :
    Document (depth + 1) (object members) := by
  refine .dict ?_ ?_ ?_
  · intro pair hpair
    obtain ⟨m, -, rfl⟩ := List.mem_map.mp hpair
    exact trivial
  · have hnames : (members.map fun m => (Value.str m.1, m.2)).map Prod.fst =
        (members.map Prod.fst).map Value.str := by
      simp
    rw [hnames]
    exact hdistinct.map fun a b heq => Value.str.inj heq
  · intro pair hpair
    obtain ⟨m, hm, rfl⟩ := List.mem_map.mp hpair
    exact h m hm

-- A dump with this under one key of the store.
def dumpOf (raw : Text) : Value :=
  object [("stra2us_backup_version".toList, .int 1), ("dump_kind".toList, .str "whole".toList),
    ("data".toList, object [("kv".toList, object [("k".toList,
      object [("value".toList, .str raw)])])])]

theorem document_dumpOf (raw : Text) : Document 4 (dumpOf raw) := by
  have hvalue : Document 1 (object [("value".toList, .str raw)]) :=
    document_object (List.nodup_singleton _) (by simpa using .string trivial)
  have hkey : Document 2 (object [("k".toList, object [("value".toList, .str raw)])]) :=
    document_object (List.nodup_singleton _) (by simpa using hvalue)
  have hdata : Document 3 (object [("kv".toList, object [("k".toList,
      object [("value".toList, .str raw)])])]) :=
    document_object (List.nodup_singleton _) (by simpa using hkey)
  have hversion : (natText (1 : Int).natAbs).length ≤ maxIntDigits := by decide
  have hnames : ["stra2us_backup_version".toList, "dump_kind".toList, "data".toList].Nodup := by
    decide
  refine document_object hnames ?_
  simp only [List.forall_mem_cons, List.not_mem_nil, false_implies, implies_true, and_true]
  exact ⟨.int hversion, .string trivial, hdata⟩

theorem fromJson_strict_dump : Strict meantFormat (DocumentKept (dumpOf "QUJD".toList))
    (BackupEnvelope.fromJson (fun _ => .text []) (dumpOf "QUJD".toList)) := by
  have hverdicts : documentVerdicts (dumpOf "QUJD".toList) =
      [.sound, .sound, .sound, .sound, .sound, .sound, .sound, .sound] := by decide
  refine (fromJson_strict_iff _ (document_dumpOf _)).mpr (.inr ?_)
  rw [hverdicts]
  simp

-- A character that has come into the base64 is passed over.
theorem fromJson_corrupt_dump : ¬ Strict meantFormat (DocumentKept (dumpOf "QU!JD".toList))
    (BackupEnvelope.fromJson (fun _ => .text []) (dumpOf "QU!JD".toList)) := by
  have hverdicts : documentVerdicts (dumpOf "QU!JD".toList) =
      [.sound, .sound, .sound, .sound, .loose, .sound, .sound, .sound] := by decide
  rw [(fares_fromJson _ (document_dumpOf _)).strict_iff, hverdicts]
  simp [stops]

end Dumps

end Stra2us.Backup
