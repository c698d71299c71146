import Stra2us.Backup.Strict

namespace Stra2us.Backup

open Foundation Server Json

def Str.IsProper (s : Str) : Prop :=
  IsString s.toValue

structure StreamEntry.WellTyped (entry : StreamEntry) : Prop where
  id : entry.id.IsProper
  names : ∀ field ∈ entry.fields.entries, field.1.IsProper

-- What the fields of an envelope are declared as: strings that documents can hold, and access
-- lists that documents come to, no deeper than this.
structure BackupEnvelope.WellTyped (depth : Nat) (env : BackupEnvelope) : Prop where
  app : IsString env.app ∨ env.dumpKind = .whole ∧ env.app = .none
  exportedAt : IsString env.exportedAt
  clients : ∀ entry ∈ env.clients.entries, entry.1.IsProper ∧ entry.2.secret.IsProper ∧
    IsObject entry.2.acl ∧ Document depth entry.2.acl
  adminAcls : ∀ entry ∈ env.adminAcls.entries,
    entry.1.IsProper ∧ IsObject entry.2 ∧ Document depth entry.2
  kv : ∀ entry ∈ env.kv.entries, entry.1.IsProper
  queues : ∀ entry ∈ env.queues.entries,
    entry.1.IsProper ∧ ∀ e ∈ entry.2, e.WellTyped
  activityLog : ∀ entries ∈ env.activityLog, ∀ e ∈ entries, e.WellTyped
  deviceToApp : ∀ entry ∈ env.deviceToApp.entries, entry.1.IsProper ∧ entry.2.IsProper

section Documents

theorem document_dictToJson {α : Type} {depth : Nat} {f : α → Value} {d : Dict Str α}
    (h : ∀ entry ∈ d.entries, entry.1.IsProper ∧ Document depth (f entry.2)) :
    Document (depth + 1) (dictToJson f d) := by
  refine .dict ?_ ?_ ?_
  · intro pair hpair
    obtain ⟨entry, hentry, rfl⟩ := List.mem_map.mp hpair
    exact (h entry hentry).1
  · have hkeys : (d.entries.map fun entry => (entry.1.toValue, f entry.2)).map Prod.fst =
        (d.entries.map Prod.fst).map Str.toValue := by
      simp
    rw [hkeys]
    exact d.nodup.map toValue_injective
  · intro pair hpair
    obtain ⟨entry, hentry, rfl⟩ := List.mem_map.mp hpair
    exact (h entry hentry).2

theorem document_stream (depth : Nat) {entry : StreamEntry} (h : entry.WellTyped) :
    Document (depth + 2) (streamToJson entry) := by
  have hfields : Document (depth + 1)
      (dictToJson (fun value => .str (Base64.encode value)) entry.fields) :=
    document_dictToJson fun field hfield => ⟨h.names field hfield, .string trivial⟩
  have hnames : ["id".toList, "fields".toList].Nodup := by decide
  refine document_object hnames ?_
  simp only [List.forall_mem_cons, List.not_mem_nil, false_implies, implies_true, and_true]
  exact ⟨.string h.id, hfields⟩

theorem document_streams (depth : Nat) {entries : List StreamEntry}
    (h : ∀ e ∈ entries, e.WellTyped) : Document (depth + 3) (.list (entries.map streamToJson)) := by
  refine .list fun item hitem => ?_
  obtain ⟨entry, hentry, rfl⟩ := List.mem_map.mp hitem
  exact document_stream depth (h entry hentry)

theorem document_client {depth : Nat} {record : ClientRecord} (hsecret : record.secret.IsProper)
    (hacl : Document depth record.acl) : Document (depth + 1) (clientToJson record) := by
  have hnames : ["secret".toList, "acl".toList].Nodup := by decide
  refine document_object hnames ?_
  simp only [List.forall_mem_cons, List.not_mem_nil, false_implies, implies_true, and_true]
  exact ⟨.string hsecret, hacl⟩

theorem document_kv (depth : Nat) (record : KvRecord) : Document (depth + 1) (kvToJson record) := by
  have hnames : ["value".toList, "encrypted".toList].Nodup := by decide
  refine document_object hnames ?_
  simp only [List.forall_mem_cons, List.not_mem_nil, false_implies, implies_true, and_true]
  exact ⟨.string trivial, .bool _⟩

def logToJson : Option (List StreamEntry) → Value
  | none => .none
  | some entries => .list (entries.map streamToJson)

theorem document_log (depth : Nat) {log : Option (List StreamEntry)}
    (h : ∀ entries ∈ log, ∀ e ∈ entries, e.WellTyped) : Document (depth + 3) (logToJson log) := by
  cases log with
  | none => exact .none
  | some entries => exact document_streams depth (h entries rfl)

-- A dump is a document of the depth its access lists and streams need.
theorem document_toJson {depth : Nat} {env : BackupEnvelope} (h : env.WellTyped (depth + 2)) :
    Document (depth + 6) env.toJson := by
  have hclients : Document (depth + 4) (dictToJson clientToJson env.clients) :=
    document_dictToJson fun entry hentry => by
      obtain ⟨hkey, hsecret, -, hacl⟩ := h.clients entry hentry
      exact ⟨hkey, document_client hsecret hacl⟩
  have hadmins : Document (depth + 4) (dictToJson id env.adminAcls) :=
    document_dictToJson fun entry hentry => by
      obtain ⟨hkey, -, hacl⟩ := h.adminAcls entry hentry
      exact ⟨hkey, hacl.mono (by omega)⟩
  have hkv : Document (depth + 4) (dictToJson kvToJson env.kv) :=
    document_dictToJson fun entry hentry => ⟨h.kv entry hentry, document_kv _ _⟩
  have hqueues : Document (depth + 4)
      (dictToJson (fun entries => .list (entries.map streamToJson)) env.queues) :=
    document_dictToJson fun entry hentry => by
      obtain ⟨hkey, hentries⟩ := h.queues entry hentry
      exact ⟨hkey, document_streams depth hentries⟩
  have hdevices : Document (depth + 4) (dictToJson Str.toValue env.deviceToApp) :=
    document_dictToJson fun entry hentry => by
      obtain ⟨hkey, happ⟩ := h.deviceToApp entry hentry
      exact ⟨hkey, .string happ⟩
  have hdataNames : ["clients".toList, "admin_acls".toList, "kv".toList, "queues".toList,
      "activity_log".toList, "device_to_app".toList].Nodup := by decide
  have hnames : ["stra2us_backup_version".toList, "dump_kind".toList, "app".toList,
      "exported_at".toList, "data".toList].Nodup := by decide
  have happ : Document (depth + 5) env.app := by
    rcases h.app with happ | ⟨-, hnone⟩
    · exact .string happ
    · rw [hnone]
      exact .none
  have hkind : Document (depth + 5) env.dumpKind.toJson := by
    cases env.dumpKind with
    | whole => exact .string trivial
    | perApp => exact .string trivial
  refine document_object hnames ?_
  simp only [List.forall_mem_cons, List.not_mem_nil, false_implies, implies_true, and_true]
  refine ⟨.int (by decide), hkind, happ, .string h.exportedAt, document_object hdataNames ?_⟩
  simp only [List.forall_mem_cons, List.not_mem_nil, false_implies, implies_true, and_true]
  exact ⟨hclients, hadmins, hkv, hqueues, document_log _ h.activityLog, hdevices⟩

end Documents

section RoundTrip

variable (strOf : Value → Str)

@[simp] theorem pyStr_toValue (s : Str) : pyStr strOf s.toValue = s := by
  simp [pyStr]

theorem stringKeyed_toJson {α : Type} (f : α → Value) (d : Dict Str α) :
    stringKeyed (d.entries.map fun entry => (entry.1.toValue, f entry.2)) =
      d.entries.map fun entry => (entry.1, f entry.2) := by
  unfold stringKeyed
  rw [List.filterMap_map]
  simp only [Function.comp_def, Str.ofValue?_toValue, Option.map_some]
  exact congrFun List.filterMap_eq_map _

-- What is written entry by entry is parsed as it was when each entry is.
theorem parseEach_toJson {α : Type} {f : α → Value} {parse : Str → Value → Except ParseError α}
    (d : Dict Str α) (h : ∀ entry ∈ d.entries, parse entry.1 (f entry.2) = .ok entry.2) :
    parseEach parse (stringKeyed (d.entries.map fun entry => (entry.1.toValue, f entry.2))) =
      .ok d := by
  have hentries : (d.entries.map fun entry => (entry.1, f entry.2)).mapM (fun item =>
      (parse item.1 item.2).map fun value => (item.1, value)) = Except.ok d.entries := by
    have hall : ∀ entry ∈ d.entries, ((parse entry.1 (f entry.2)).map fun value =>
        (entry.1, value)) = pure (id entry) := by
      intro entry hentry
      rw [h entry hentry]
      rfl
    rw [List.mapM_map]
    exact (mapM_eq_map hall).trans (by rw [List.map_id]; rfl)
  have hread : ∀ items, parseEach parse items = (items.mapM fun item =>
      (parse item.1 item.2).map fun value => (item.1, value)).map Dict.ofList := fun _ => rfl
  rw [stringKeyed_toJson, hread, hentries]
  exact congrArg Except.ok (Dict.ofList_entries d)

theorem section_toJson {α : Type} {f : α → Value} {parse : Str → Value → Except ParseError α}
    (d : Dict Str α) (h : ∀ entry ∈ d.entries, parse entry.1 (f entry.2) = .ok entry.2)
    {data : List (Value × Value)} {name : String}
    (hdata : Value.lookup data name.toList = some (dictToJson f d)) :
    sectionFromJson parse data name = .ok d := by
  have hitems : itemsOf (some (dictToJson f d)) =
      .ok (stringKeyed (d.entries.map fun entry => (entry.1.toValue, f entry.2))) := by
    unfold dictToJson
    cases d.entries with
    | nil => rfl
    | cons entry rest => rfl
  rw [sectionFromJson, hdata, hitems]
  exact parseEach_toJson d h

theorem clientFromJson_toJson (clientId : Str) {record : ClientRecord} (h : IsObject record.acl) :
    clientFromJson strOf clientId (clientToJson record) = .ok record := by
  obtain ⟨secret, acl⟩ := record
  obtain ⟨pairs, hacl⟩ := h
  obtain rfl : acl = .dict pairs := hacl
  have hkept : orElse (some (.dict pairs)) (.dict []) = .dict pairs := by
    cases pairs with
    | nil => rfl
    | cons pair rest => rfl
  change Except.ok (ClientRecord.mk (pyStr strOf secret.toValue)
    (orElse (some (.dict pairs)) (.dict []))) = _
  rw [pyStr_toValue, hkept]

theorem adminAclFromJson_self (user : Str) {acl : Value} (h : IsObject acl) :
    adminAclFromJson user acl = .ok acl := by
  obtain ⟨pairs, rfl⟩ := h
  rfl

theorem b64decode_encode (place : Place) (bytes : Bytes) :
    b64decode place (.str (Base64.encode bytes)) = .ok bytes := by
  rw [b64decode, Base64.decode_encode]

theorem kvFromJson_toJson (key : Str) (record : KvRecord) :
    kvFromJson key (kvToJson record) = .ok record := by
  change (b64decode (.kvValue key) (.str (Base64.encode record.value))).bind (fun bytes =>
    .ok (KvRecord.mk bytes (Value.bool record.encrypted).truthy)) = _
  rw [b64decode_encode]
  rfl

theorem streamFromJson_toJson (place : Place) (entry : StreamEntry) :
    streamFromJson strOf place (streamToJson entry) = .ok entry := by
  have hfields : parseEach (fun name value => b64decode (.field place name) value) (stringKeyed
      (entry.fields.entries.map fun field =>
        (field.1.toValue, .str (Base64.encode field.2)))) = .ok entry.fields :=
    parseEach_toJson (f := fun bytes => .str (Base64.encode bytes)) entry.fields
      fun field _ => b64decode_encode _ field.2
  change (parseEach (fun name value => b64decode (.field place name) value) (stringKeyed
    (entry.fields.entries.map fun field => (field.1.toValue, .str (Base64.encode field.2))))).bind
      (fun fields => .ok (StreamEntry.mk (pyStr strOf entry.id.toValue) fields)) = _
  rw [hfields, pyStr_toValue]
  rfl

theorem streams_toJson (place : Place) (entries : List StreamEntry) :
    (entries.map streamToJson).mapM (streamFromJson strOf place) = .ok entries := by
  rw [List.mapM_map]
  have hall : ∀ entry ∈ entries, streamFromJson strOf place (streamToJson entry) =
      pure (id entry) := fun entry _ => streamFromJson_toJson strOf place entry
  exact (mapM_eq_map hall).trans (by rw [List.map_id]; rfl)

theorem logFromJson_toJson (log : Option (List StreamEntry)) :
    logFromJson strOf (some (logToJson log)) = .ok log := by
  cases log with
  | none => rfl
  | some entries =>
      change ((entries.map streamToJson).mapM (streamFromJson strOf .activityLog)).bind
        (fun entries => .ok (some entries)) = _
      rw [streams_toJson]
      rfl

def dataToJson (env : BackupEnvelope) : List (Text × Value) :=
  [("clients".toList, dictToJson clientToJson env.clients),
    ("admin_acls".toList, dictToJson id env.adminAcls),
    ("kv".toList, dictToJson kvToJson env.kv),
    ("queues".toList, dictToJson (fun entries => .list (entries.map streamToJson)) env.queues),
    ("activity_log".toList, logToJson env.activityLog),
    ("device_to_app".toList, dictToJson Str.toValue env.deviceToApp)]

theorem dataFromJson_toJson {depth : Nat} {env : BackupEnvelope} (h : env.WellTyped depth) :
    dataFromJson strOf env.dumpKind env.app env.exportedAt
      ((dataToJson env).map fun m => (.str m.1, m.2)) = .ok env := by
  have hclients : sectionFromJson (clientFromJson strOf)
      ((dataToJson env).map fun m => (.str m.1, m.2)) "clients" = .ok env.clients :=
    section_toJson env.clients (fun entry hentry =>
      clientFromJson_toJson strOf entry.1 (h.clients entry hentry).2.2.1) rfl
  have hadmins : sectionFromJson adminAclFromJson
      ((dataToJson env).map fun m => (.str m.1, m.2)) "admin_acls" = .ok env.adminAcls :=
    section_toJson (f := id) env.adminAcls (fun entry hentry =>
      adminAclFromJson_self entry.1 (h.adminAcls entry hentry).2.1) rfl
  have hkv : sectionFromJson kvFromJson
      ((dataToJson env).map fun m => (.str m.1, m.2)) "kv" = .ok env.kv :=
    section_toJson env.kv (fun entry _ => kvFromJson_toJson entry.1 entry.2) rfl
  have hqueues : sectionFromJson (queueFromJson strOf)
      ((dataToJson env).map fun m => (.str m.1, m.2)) "queues" = .ok env.queues :=
    section_toJson (f := fun entries => .list (entries.map streamToJson)) env.queues
      (fun entry _ => streams_toJson strOf (.queue entry.1) entry.2) rfl
  have hlog : logFromJson strOf (Value.lookup
      ((dataToJson env).map fun m => (.str m.1, m.2)) "activity_log".toList) = .ok env.activityLog :=
    logFromJson_toJson strOf env.activityLog
  have hdevices : sectionFromJson (fun _ value => .ok (pyStr strOf value))
      ((dataToJson env).map fun m => (.str m.1, m.2)) "device_to_app" = .ok env.deviceToApp :=
    section_toJson env.deviceToApp (fun entry _ => by rw [pyStr_toValue]) rfl
  rw [dataFromJson_eq, hclients, hadmins, hkv, hqueues, hlog, hdevices]
  rfl

theorem orElse_string {value : Value} (h : IsString value) :
    orElse (some value) (.str []) = value := by
  cases value with
  | str text =>
      cases text with
      | nil => rfl
      | cons c rest => rfl
  | surrogates units =>
      cases units with
      | nil => exact absurd h.any_isSurrogate (by decide)
      | cons unit rest => rfl
  | _ => exact absurd h id

-- An envelope is parsed from its own dump as it was.
theorem fromJson_toJson {depth : Nat} {env : BackupEnvelope} (h : env.WellTyped depth) :
    BackupEnvelope.fromJson strOf env.toJson = .ok env := by
  have hkind : dumpKindFromJson env.dumpKind.toJson = .ok env.dumpKind := by
    cases env.dumpKind with
    | whole => rfl
    | perApp => rfl
  have happ : ¬ (env.dumpKind = .perApp ∧ (Str.ofValue? env.app).isNone = true) := by
    rintro ⟨hper, hnone⟩
    rcases h.app with happ | ⟨hwhole, -⟩
    · obtain ⟨name, hname, -⟩ := ofValue?_of_isString happ
      rw [hname] at hnone
      cases hnone
    · rw [hwhole] at hper
      cases hper
  have hread : BackupEnvelope.fromJson strOf env.toJson =
      (dumpKindFromJson env.dumpKind.toJson).bind fun kind =>
        if kind = .perApp ∧ (Str.ofValue? env.app).isNone then .error (.format .perAppName)
        else dataFromJson strOf kind env.app (orElse (some env.exportedAt) (.str []))
          ((dataToJson env).map fun m => (.str m.1, m.2)) := rfl
  rw [hread, hkind, Except.bind, if_neg happ, orElse_string h.exportedAt]
  exact dataFromJson_toJson strOf h

-- Through the text of the dump and back: any envelope whose fields are what they are declared
-- as, when the interpreter takes its access lists six levels down.
theorem fromJson_loads_dumps {depth : Nat} {env : BackupEnvelope}
    (h : env.WellTyped (depth + 2)) : ∃ text doc, dumpsValue (depth + 7) env.toJson = .ok text ∧
      loads (depth + 6) text = .ok doc ∧ BackupEnvelope.fromJson strOf doc = .ok env := by
  obtain ⟨text, hdumps, hloads⟩ := (document_toJson h).loads_dumps
  exact ⟨text, env.toJson, hdumps, hloads, fromJson_toJson strOf h⟩

end RoundTrip

section Examples

-- A dump of one device of the fleet and nothing else.
def oneDevice (device : Str) : BackupEnvelope where
  dumpKind := .whole
  app := .none
  exportedAt := .str []
  clients := Dict.empty
  adminAcls := Dict.empty
  kv := Dict.empty
  queues := Dict.empty
  activityLog := none
  deviceToApp := ⟨[(device, .text "app".toList)], List.nodup_singleton _⟩

theorem wellTyped_oneDevice (device : Text) : (oneDevice (.text device)).WellTyped 2 where
  app := .inr ⟨rfl, rfl⟩
  exportedAt := trivial
  clients := fun _ hentry => (nomatch hentry)
  adminAcls := fun _ hentry => (nomatch hentry)
  kv := fun _ hentry => (nomatch hentry)
  queues := fun _ hentry => (nomatch hentry)
  activityLog := fun _ hentries => (nomatch hentries)
  deviceToApp := by
    intro entry hentry
    obtain rfl := List.mem_singleton.mp hentry
    exact ⟨trivial, trivial⟩

theorem fromJson_loads_dumps_device : ∃ text doc,
    dumpsValue 7 (oneDevice (.text "dev".toList)).toJson = .ok text ∧ loads 6 text = .ok doc ∧
      BackupEnvelope.fromJson (fun _ => .text []) doc = .ok (oneDevice (.text "dev".toList)) :=
  @fromJson_loads_dumps _ 0 _ (wellTyped_oneDevice _)

-- A surrogate pair held as its two halves is written like the character it stands for.
theorem fromJson_loads_dumps_pair : ¬ ∃ text doc,
    dumpsValue 7 (oneDevice (.surrogates [0xd83d, 0xde00])).toJson = .ok text ∧
      loads 6 text = .ok doc ∧ BackupEnvelope.fromJson (fun _ => .text []) doc =
        .ok (oneDevice (.surrogates [0xd83d, 0xde00])) := by
  rintro ⟨text, doc, hdumps, hloads, hparse⟩
  have hsame : dumpsValue 7 (oneDevice (.surrogates [0xd83d, 0xde00])).toJson =
      dumpsValue 7 (oneDevice (.text [Char.ofNat 0x1f600])).toJson := rfl
  obtain ⟨text', hdumps', hloads'⟩ :=
    (@document_toJson 0 _ (wellTyped_oneDevice [Char.ofNat 0x1f600])).loads_dumps
  rw [hsame, hdumps'] at hdumps
  obtain rfl := Except.ok.inj hdumps
  rw [hloads'] at hloads
  obtain rfl := Except.ok.inj hloads
  rw [fromJson_toJson _ (wellTyped_oneDevice _)] at hparse
  have hdevices := congrArg (fun env : BackupEnvelope => env.deviceToApp.entries)
    (Except.ok.inj hparse)
  cases hdevices

end Examples

end Stra2us.Backup
