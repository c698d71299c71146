import Stra2us.Backup.Freshness

namespace Stra2us.Backup

open Foundation Server

-- What a store has of a client, a user, a value. It is there when its first part is.
inductive Record
  | client (clientId : Text)
  | adminAcl (user : Text)
  | kv (key : Text)
  | queue (topic : Text)
  | deviceToApp (clientId : Text)
  | activityLog
deriving DecidableEq, Repr

namespace Record

def main : Record → Slot
  | .client id => .secret id
  | .adminAcl user => .adminAcl user
  | .kv key => .kv key
  | .queue topic => .queue topic
  | .deviceToApp id => .deviceToApp id
  | .activityLog => .activityLog

def slots : Record → List Slot
  | .client id => [.secret id, .acl id]
  | .kv key => [.kv key, .flag key]
  | record => [record.main]

def Exists (store : Store) (record : Record) : Prop :=
  store.has record.main.key = true

end Record

def Item.record? : Item → Option Record
  | .client (.text id) _ => some (.client id)
  | .adminAcl (.text user) _ => some (.adminAcl user)
  | .kv (.text key) _ => some (.kv key)
  | .queue (.text topic) _ => some (.queue topic)
  | .deviceToApp (.text id) _ => some (.deviceToApp id)
  | .activityLog _ => some .activityLog
  | _ => none

theorem slots_of_record {item : Item} {record : Record} (h : item.record? = some record) :
    item.slots = record.slots := by
  cases item with
  | activityLog entries =>
      obtain rfl := Option.some.inj h
      rfl
  | client name _ | adminAcl name _ | kv name _ | queue name _ | deviceToApp name _ =>
      cases name with
      | surrogates units => cases h
      | text name =>
          obtain rfl := Option.some.inj h
          rfl

-- But for values and flags, a key is part of one record.
theorem record_of_slot {item : Item} {record : Record} {slot : Slot} (hkv : ¬ slot.IsKv)
    (hitem : slot ∈ item.slots) (hrecord : slot ∈ record.slots) : item.record? = some record := by
  cases item with
  | kv name _ => exact absurd trivial (not_isKv_of_mem_slot hitem hkv)
  | activityLog entries =>
      obtain rfl := List.mem_singleton.mp hitem
      cases record <;> simp [Record.slots, Record.main, Slot.flag] at hrecord
      rfl
  | client name _ | adminAcl name _ | queue name _ | deviceToApp name _ =>
      cases name with
      | surrogates units => exact absurd hitem List.not_mem_nil
      | text name =>
          simp only [Item.slots, List.mem_cons, List.not_mem_nil, or_false] at hitem
          cases record <;> rcases hitem with rfl | rfl <;>
            simp_all [Record.slots, Record.main, Slot.flag, Item.record?]

section Stored

variable (cfg : Restoring)

def Holds (stored : Entry) (entry : StreamEntry) : Prop :=
  entry.id = .text stored.id.text ∧
    entry.fields.entries = stored.fields.map fun field => (.text field.1, field.2)

-- What the entry says is what the store has.
def Item.StoredIn (s : Store) : Item → Prop
  | .client (.text id) record =>
      (∃ secret, record.secret = .text secret ∧ s.get (clientSecretKey id) = some (utf8 secret)) ∧
        ∃ raw, cfg.dumps record.acl = .ok raw ∧ s.get (clientAclKey id) = some raw
  | .adminAcl (.text user) acl => ∃ raw, cfg.dumps acl = .ok raw ∧ s.get (adminAclKey user) = some raw
  | .kv (.text key) record =>
      s.get (kvKey key) = some record.value ∧
        if record.encrypted then s.get (encKey key) = some (utf8 "1".toList)
        else s.has (encKey key) = false
  | .queue (.text topic) entries => List.Forall₂ Holds (s.stream (queueKey topic)).entries entries
  | .deviceToApp (.text id) app =>
      ∃ text, app = .text text ∧ s.get (deviceToAppKey id) = some (utf8 text)
  | .activityLog entries => List.Forall₂ Holds (s.stream activityLogKey).entries entries
  | _ => False

variable {cfg}

theorem encodeFields_ok {fields : Dict Str Bytes} {out : List (Text × Bytes)} :
    encodeFields fields = .ok out ↔
      fields.entries = out.map fun field => (.text field.1, field.2) := by
  have hfield (field : Str × Bytes) (result : Text × Bytes) :
      (field.1.encode.map fun name => (name, field.2)) = .ok result ↔
        field = (.text result.1, result.2) := by
    obtain ⟨name, bytes⟩ := field
    obtain ⟨text, value⟩ := result
    cases name with
    | text t => simp [Str.encode, Except.map]
    | surrogates units => simp [Str.encode, Except.map]
  unfold encodeFields
  rw [mapM_ok_iff]
  simp only [hfield]
  generalize fields.entries = entries
  constructor
  · intro h
    induction h with
    | nil => rfl
    | cons hfirst _ ih => rw [List.map_cons, hfirst, ih]
  · intro h
    rw [h, List.forall₂_map_left_iff]
    exact List.forall₂_same.mpr fun _ _ => rfl

theorem place_ok {stream grown : Stream} {entry : StreamEntry} (h : place cfg stream entry = .ok grown) :
    ∃ idText req id fields, entry.id = .text idText ∧ cfg.parseId idText = some req ∧
      req.resolve stream.last cfg.nowMs = some id ∧ encodeFields entry.fields = .ok fields ∧
        grown.entries = stream.entries ++ [⟨id, fields⟩] := by
  unfold place at h
  split_ifs at h with hempty
  cases hid : entry.id.encode with
  | error exn =>
      rw [hid] at h
      cases h
  | ok idText =>
      cases hfields : encodeFields entry.fields with
      | error exn =>
          rw [hid, hfields] at h
          cases h
      | ok fields =>
          rw [hid, hfields] at h
          dsimp only [bind, Except.bind] at h
          cases hreq : cfg.parseId idText with
          | none =>
              rw [hreq] at h
              cases h
          | some req =>
              rw [hreq] at h
              cases hresolve : req.resolve stream.last cfg.nowMs with
              | none =>
                  simp only [Option.bind_some, hresolve] at h
                  cases h
              | some id =>
                  simp only [Option.bind_some, hresolve] at h
                  split_ifs at h with hlt
                  obtain rfl := Except.ok.inj h
                  exact ⟨idText, req, id, fields, Str.encode_ok.mp hid, hreq, hresolve, rfl, rfl⟩

-- Entries with ids in full are put down as they are.
theorem holds_filled (hids : ∀ (id : StreamId) req, cfg.parseId id.text = some req → req = .exact id)
    {stream? : Option Stream} {entries : List StreamEntry}
    (hfills : Fills cfg (stream?.getD .empty) entries)
    (h : ∀ entry ∈ entries, ∃ id : StreamId, entry.id = .text id.text) :
    ∃ added, ((filled cfg stream? entries).getD .empty).entries =
      (stream?.getD .empty).entries ++ added ∧ List.Forall₂ Holds added entries := by
  induction entries generalizing stream? with
  | nil => exact ⟨[], (List.append_nil _).symm, .nil⟩
  | cons entry rest ih =>
      obtain ⟨grown, hplace, hrest⟩ := hfills
      obtain ⟨added, hadded, hall⟩ := @ih (some grown) hrest fun e he => h e (by simp [he])
      obtain ⟨idText, req, id, fields, hid, hreq, hresolve, hfields, hgrown⟩ := place_ok hplace
      obtain ⟨full, hfull⟩ := h entry (by simp)
      obtain rfl := Str.text.inj (hid.symm.trans hfull)
      obtain rfl := hids full req hreq
      obtain rfl : full = id := Option.some.inj hresolve
      refine ⟨⟨full, fields⟩ :: added, ?_, .cons ⟨hid, encodeFields_ok.mp hfields⟩ hall⟩
      simp only [filled, hplace]
      rw [hadded]
      simp [hgrown]

end Stored

section Preserves

variable (cfg : Restoring) (env : BackupEnvelope) (store : Store)

-- What was there stays as it was, each entry is reported once, and one that is reported
-- restored is stored as it came.
structure Preserves (result : Result) : Prop where
  frame : ∀ record : Record, record.Exists store → ∀ slot ∈ record.slots,
    (applyEnvelope cfg env store).2.peek slot.key = store.peek slot.key
  accounted : ∀ item ∈ env.items, item.Accounted cfg result
  stored : ∀ item ∈ env.items, item.Reported result .restored →
    item.StoredIn cfg (applyEnvelope cfg env store).2

def LetsIn (name : Text) (record : KvRecord) : Prop :=
  .kv (.text name) record ∈ env.items ∧ (restoreKv cfg (.text name) record).refused = .ok false

-- A fresh value is not put where another one has its flag, its flag is put where none is or the
-- same one, and a fresh value that comes in for the flag is that very flag.
structure FlagsApart (name : Text) (record : KvRecord) : Prop where
  base : ∀ base, flagOf base = name → store.has (kvKey base) = false
  there : store.has (encKey name) = true →
    record.encrypted = true ∧ store.get (encKey name) = some (utf8 "1".toList)
  coming : ∀ flag, LetsIn cfg env (flagOf name) flag → Fresh cfg env store (flagOf name) →
    record.encrypted = true ∧ flag.value = utf8 "1".toList

def Item.streamEntries? : Item → Option (List StreamEntry)
  | .queue _ entries => some entries
  | .activityLog entries => some entries
  | _ => none

structure Harmless : Prop where
  idle : ∀ item ∈ env.items, ¬ item.IsKv → ∀ record, item.record? = some record →
    record.Exists store → item.Idle cfg store
  flags : ∀ name record, LetsIn cfg env name record → Fresh cfg env store name →
    FlagsApart cfg env store name record
  ids : ∀ item ∈ env.items, ∀ entries, item.streamEntries? = some entries → ∀ name,
    (item.task cfg).Accepts name → (item.task cfg).present name store = false →
      ∀ entry ∈ entries, ∃ id : StreamId, entry.id = .text id.text

variable {cfg} {env} {store} {before after : List Item} {item : Item} {result : Result}
  {name : Text} {record : KvRecord}

theorem LetsIn.accepts (h : LetsIn cfg env name record) :
    (restoreKv cfg (.text name) record).Accepts name :=
  ⟨h.2, rfl⟩

theorem LetsIn.of_lands (h : Lands cfg env.items before (.start store) name record) :
    LetsIn cfg env name record := by
  obtain ⟨after, hsplit⟩ := h.split
  exact ⟨by simp [hsplit], h.accepts.1⟩

theorem absent_of_encKey {base : Text} : store.has (encKey base) = store.has (kvKey (flagOf base)) := by
  rw [kvKey_flagOf]

-- Values and flags change only where a value lands.
theorem kv_step (hskip : cfg.forceOverwrite = false)
    (hreaches : Reaches (restoreItem cfg) env.items before item (.start store)) :
    (∀ key, (restoreItem cfg item (batch (restoreItem cfg) before (.start store)).2).2.store.peek
      (kvKey key) = (batch (restoreItem cfg) before (.start store)).2.store.peek (kvKey key)) ∨
    ∃ name record, item = .kv (.text name) record ∧
      Lands cfg env.items before (.start store) name record := by
  by_cases hbrings : ∃ name, item.Brings cfg name
  · obtain ⟨name, hbrings⟩ := hbrings
    cases hpresent : (batch (restoreItem cfg) before (.start store)).2.store.has (kvKey name) with
    | true =>
        rw [restoreItem_of_present hskip hbrings hpresent]
        exact .inl fun _ => rfl
    | false =>
        obtain ⟨record, rfl, haccepts⟩ := hbrings
        exact .inr ⟨name, record, rfl, hreaches.1, haccepts, hpresent⟩
  · exact .inl fun key =>
      restoreItem_of_not_brings (fun name hname => hbrings ⟨name, hname⟩) key _

theorem finds_iff_lands {record : KvRecord}
    (hsplit : env.items = before ++ .kv (.text name) record :: after) :
    (Item.kv (.text name) record).Finds cfg store before false ↔
      Lands cfg env.items before (.start store) name record := by
  constructor
  · rintro ⟨other, haccepts, habsent⟩
    obtain rfl : name = other := Except.ok.inj haccepts.2
    exact ⟨⟨after, hsplit⟩, haccepts, habsent⟩
  · intro h
    exact ⟨name, h.accepts, h.absent⟩

-- So what is said of values and flags alone, and kept where a value lands, holds throughout.
theorem kv_invariant {inv : Store → Prop} (hskip : cfg.forceOverwrite = false)
    (hsame : ∀ s t : Store, (∀ key, t.peek (kvKey key) = s.peek (kvKey key)) → inv s → inv t)
    (hlands : ∀ first name record, Lands cfg env.items first (.start store) name record →
      inv (batch (restoreItem cfg) first (.start store)).2.store →
        inv (setRecord name record (batch (restoreItem cfg) first (.start store)).2.store))
    (h : inv store) : inv (applyEnvelope cfg env store).2 := by
  let holds (s : State) : Prop := inv s.store
  suffices hstep : ∀ before item, Reaches (restoreItem cfg) env.items before item (.start store) →
      holds (batch (restoreItem cfg) before (.start store)).2 →
        holds (restoreItem cfg item (batch (restoreItem cfg) before (.start store)).2).2 from
    batch_invariant_of_reaches hstep h
  intro before item hreaches hinv
  rcases kv_step hskip hreaches with hkept | ⟨name, record, rfl, hland⟩
  · exact hsame _ _ hkept hinv
  · change inv (restoreItem cfg _ _).2.store
    rw [store_of_absent hland.accepts hland.absent]
    exact hlands before name record hland hinv

theorem kv_invariant_from {inv : Store → Prop} (hskip : cfg.forceOverwrite = false)
    (hok : (batch (restoreItem cfg) env.items (.start store)).1 = .ok ())
    (hsame : ∀ s t : Store, (∀ key, t.peek (kvKey key) = s.peek (kvKey key)) → inv s → inv t)
    (hland : Lands cfg env.items before (.start store) name record)
    (hlands : ∀ first other record', Lands cfg env.items first (.start store) other record' →
      other ≠ name → ∀ s, inv s → inv (setRecord other record' s))
    (h : ∀ s, inv (setRecord name record s)) : inv (applyEnvelope cfg env store).2 := by
  obtain ⟨after, hsplit⟩ := hland.split
  obtain ⟨hstep, hrest⟩ := batch_split hok hsplit
  have hbefore := (reaches_of_ok hok hsplit).2
  let holds (s : State) : Prop := inv s.store
  change holds (batch (restoreItem cfg) env.items (.start store)).2
  rw [hrest]
  refine batch_invariant_of_reaches ?_ ?_
  · intro first item hreaches hinv
    obtain ⟨hreaches', hstate⟩ := hreaches.shift hbefore hstep
    rw [← hsplit] at hreaches'
    rw [← hstate] at hinv ⊢
    rcases kv_step hskip hreaches' with hkept | ⟨other, record', rfl, hland'⟩
    · exact hsame _ _ hkept hinv
    · obtain ⟨rest, hafter⟩ := hreaches.1
      have hne : other ≠ name := by
        rintro rfl
        exact (label_ne_of_split hsplit).2 (.kv (.text other) record') (by simp [hafter]) rfl
      change inv (restoreItem cfg _ _).2.store
      rw [store_of_absent hland'.accepts hland'.absent]
      exact hlands _ other record' hland' hne _ hinv
  · change inv (restoreItem cfg _ _).2.store
    rw [store_of_absent hland.accepts hland.absent]
    exact h _

-- Where the run finds nothing, what the entry leaves is there at the end.
theorem peek_leaves_end
    (hreaches : Reaches (restoreItem cfg) env.items before item (.start store))
    (hfinds : item.Finds cfg store before false) {p : Slot × (Option Bytes × Option Stream)}
    (hp : p ∈ item.leaves cfg (batch (restoreItem cfg) before (.start store)).2.store) :
    (applyEnvelope cfg env store).2.peek p.1.key = p.2 := by
  obtain ⟨name, haccepts, habsent⟩ := hfinds
  obtain ⟨hslot, hkv⟩ := Item.mem_slots_of_leaves hp
  have hskips : ¬ (item.task cfg).Skips cfg.forceOverwrite name
      (batch (restoreItem cfg) before (.start store)).2.store := by
    rintro ⟨hpresent, -⟩
    rw [habsent] at hpresent
    cases hpresent
  rw [peek_after hreaches hslot hkv]
  change ((item.task cfg).run _ _).2.store.peek _ = _
  rw [(Task.run_written haccepts hskips).2.1]
  exact Item.peek_leaves haccepts hp

theorem storable_of_finds
    (hstep : (restoreItem cfg item (batch (restoreItem cfg) before (.start store)).2).1 = .ok ())
    (hfinds : item.Finds cfg store before false) : item.Storable cfg := by
  obtain ⟨name, haccepts, habsent⟩ := hfinds
  rcases restoreItem_ok_iff.mp hstep with hrefused | ⟨other, hother, ⟨hpresent, -⟩ | hstorable⟩
  · rw [haccepts.1] at hrefused
    cases hrefused
  · obtain rfl := Except.ok.inj (haccepts.2.symm.trans hother.2)
    rw [habsent] at hpresent
    cases hpresent
  · exact hstorable

theorem stored_of_not_isKv
    (hids : ∀ (id : StreamId) req, cfg.parseId id.text = some req → req = .exact id)
    (hok : (batch (restoreItem cfg) env.items (.start store)).1 = .ok ())
    (hsplit : env.items = before ++ item :: after) (hkv : ¬ item.IsKv)
    (hfinds : item.Finds cfg store before false)
    (hfull : ∀ entries, item.streamEntries? = some entries →
      ∀ entry ∈ entries, ∃ id : StreamId, entry.id = .text id.text) :
    item.StoredIn cfg (applyEnvelope cfg env store).2 := by
  have hreaches := reaches_of_ok hok hsplit
  have hstorable := storable_of_finds (batch_split hok hsplit).1 hfinds
  have hleft (p) (hp : p ∈ item.leaves cfg (batch (restoreItem cfg) before (.start store)).2.store) :
      (applyEnvelope cfg env store).2.peek p.1.key = p.2 :=
    peek_leaves_end hreaches hfinds hp
  have hstream {key : Text} {entries : List StreamEntry} (hfills : Fills cfg .empty entries)
      (hentries : ∀ entry ∈ entries, ∃ id : StreamId, entry.id = .text id.text)
      (hpeek : (applyEnvelope cfg env store).2.peek key = (none, filled cfg none entries)) :
      List.Forall₂ Holds ((applyEnvelope cfg env store).2.stream key).entries entries := by
    obtain ⟨added, hadded, hall⟩ := @holds_filled cfg hids none entries hfills hentries
    have hsame : (applyEnvelope cfg env store).2.stream? key = filled cfg none entries :=
      congrArg Prod.snd hpeek
    rw [Store.stream, hsame, hadded]
    exact hall
  obtain ⟨name, haccepts, -⟩ := hfinds
  have hname := haccepts.2
  cases item with
  | client cid record =>
      obtain rfl := Str.encode_ok.mp hname
      obtain ⟨⟨secret, hsecret⟩, raw, hraw⟩ := hstorable
      simp only [Item.leaves, hsecret, hraw, List.mem_cons, List.not_mem_nil, or_false,
        forall_eq_or_imp, forall_eq] at hleft
      exact ⟨⟨secret, hsecret, congrArg Prod.fst hleft.1⟩, raw, hraw, congrArg Prod.fst hleft.2⟩
  | adminAcl user acl =>
      obtain rfl := Str.encode_ok.mp hname
      obtain ⟨raw, hraw⟩ := hstorable
      simp only [Item.leaves, hraw, List.mem_singleton, forall_eq] at hleft
      exact ⟨raw, hraw, congrArg Prod.fst hleft⟩
  | kv key record => exact absurd trivial hkv
  | queue topic entries =>
      obtain rfl := Str.encode_ok.mp hname
      simp only [Item.leaves, List.mem_singleton, forall_eq] at hleft
      exact hstream hstorable (hfull entries rfl) hleft
  | deviceToApp cid app =>
      obtain rfl := Str.encode_ok.mp hname
      obtain ⟨text, rfl⟩ := hstorable
      simp only [Item.leaves, List.mem_singleton, forall_eq] at hleft
      exact ⟨text, rfl, congrArg Prod.fst hleft⟩
  | activityLog entries =>
      simp only [Item.leaves, List.mem_singleton, forall_eq] at hleft
      exact hstream hstorable (hfull entries rfl) hleft

section Harmless

variable (hskip : cfg.forceOverwrite = false)
  (hok : (batch (restoreItem cfg) env.items (.start store)).1 = .ok ())
  (hflags : ∀ name record, LetsIn cfg env name record → Fresh cfg env store name →
    FlagsApart cfg env store name record)

include hskip hok hflags

theorem fresh_of_lands (h : Lands cfg env.items before (.start store) name record) :
    Fresh cfg env store name := by
  obtain ⟨after, hsplit⟩ := h.split
  refine (absent_iff_fresh hskip hok ?_ hsplit).mp h.absent
  intro first base record' hlands hfresh hthere
  rw [← absent_of_encKey] at hthere
  exact ((hflags base record' (.of_lands hlands) hfresh).there hthere).1

-- A value that is there stays, and so does its flag.
theorem frame_kv {key : Text} (hthere : store.has (kvKey key) = true) :
    (applyEnvelope cfg env store).2.peek (kvKey key) = store.peek (kvKey key) ∧
      (applyEnvelope cfg env store).2.peek (kvKey (flagOf key)) =
        store.peek (kvKey (flagOf key)) := by
  let same (s : Store) : Prop := s.peek (kvKey key) = store.peek (kvKey key) ∧
    s.peek (kvKey (flagOf key)) = store.peek (kvKey (flagOf key))
  change same (applyEnvelope cfg env store).2
  refine kv_invariant hskip (fun s t hkept h => ⟨(hkept _).trans h.1, (hkept _).trans h.2⟩) ?_
    ⟨rfl, rfl⟩
  rintro first name record hlands ⟨hvalue, hflag⟩
  have hfresh := fresh_of_lands hskip hok hflags hlands
  have hapart := hflags name record (.of_lands hlands) hfresh
  have hne : name ≠ key := by
    rintro rfl
    have habsent := hlands.absent
    rw [has_congr hvalue, hthere] at habsent
    cases habsent
  have hown : name ≠ flagOf key := by
    intro heq
    rw [hapart.base key heq.symm] at hthere
    cases hthere
  constructor
  · rw [peek_setRecord_eq, recordPuts, if_neg hne, hvalue]
    by_cases hnameFlag : flagOf name = key
    · subst hnameFlag
      rw [← absent_of_encKey] at hthere
      obtain ⟨henc, hget⟩ := hapart.there hthere
      rw [← kvKey_flagOf] at hget
      rw [if_pos rfl, if_pos henc]
      exact Prod.ext hget.symm rfl
    · rw [if_neg hnameFlag]
      rfl
  · rw [peek_setRecord_eq, recordPuts, if_neg hown,
      if_neg fun heq => hne (flagOf_injective heq), hflag]
    rfl

-- A value that lands is there at the end, with its flag.
theorem get_of_lands (h : Lands cfg env.items before (.start store) name record) :
    (applyEnvelope cfg env store).2.get (kvKey name) = some record.value := by
  have hfresh := fresh_of_lands hskip hok hflags h
  let stored (s : Store) : Prop := s.get (kvKey name) = some record.value
  change stored (applyEnvelope cfg env store).2
  refine kv_invariant_from hskip hok (fun s t hkept hs => ?_) h ?_ ?_
  · exact (congrArg Prod.fst (hkept name)).trans hs
  · intro first other record' hlands hne s hs
    have hpeek := congrArg Prod.fst (peek_setRecord_eq other name record' s)
    rw [recordPuts, if_neg hne] at hpeek
    refine hpeek.trans ?_
    by_cases hflag : flagOf other = name
    · subst hflag
      have hapart := hflags other record' (.of_lands hlands) (fresh_of_lands hskip hok hflags hlands)
      obtain ⟨henc, hone⟩ := hapart.coming record (.of_lands h) hfresh
      rw [if_pos rfl, if_pos henc, hone]
      rfl
    · rw [if_neg hflag]
      exact hs
  · intro s
    exact congrArg Prod.fst (peek_own record s)

theorem flag_of_lands (h : Lands cfg env.items before (.start store) name record) :
    if record.encrypted then
      (applyEnvelope cfg env store).2.get (kvKey (flagOf name)) = some (utf8 "1".toList)
    else (applyEnvelope cfg env store).2.has (kvKey (flagOf name)) = false := by
  have hapart := hflags name record (.of_lands h) (fresh_of_lands hskip hok hflags h)
  let flagged (s : Store) : Prop :=
    if record.encrypted then s.get (kvKey (flagOf name)) = some (utf8 "1".toList)
    else s.has (kvKey (flagOf name)) = false
  change flagged (applyEnvelope cfg env store).2
  refine kv_invariant_from hskip hok (fun s t hkept hs => ?_) h ?_ ?_
  · have hget : t.get (kvKey (flagOf name)) = s.get (kvKey (flagOf name)) :=
      congrArg Prod.fst (hkept (flagOf name))
    change if record.encrypted then _ else _
    rw [hget, has_congr (hkept (flagOf name))]
    exact hs
  · intro first other record' hlands hne s hs
    have hpeek := peek_setRecord_eq other (flagOf name) record' s
    have hnotFlag : flagOf other ≠ flagOf name := fun heq => hne (flagOf_injective heq)
    rw [recordPuts, if_neg hnotFlag] at hpeek
    by_cases hown : other = flagOf name
    · subst hown
      obtain ⟨henc, hone⟩ := hapart.coming record' (.of_lands hlands)
        (fresh_of_lands hskip hok hflags hlands)
      rw [if_pos rfl, hone] at hpeek
      change if record.encrypted then _ else _
      rw [if_pos henc]
      exact congrArg Prod.fst hpeek
    · rw [if_neg hown] at hpeek
      have hget : (setRecord other record' s).get (kvKey (flagOf name)) =
          s.get (kvKey (flagOf name)) := congrArg Prod.fst hpeek
      change if record.encrypted then _ else _
      rw [hget, has_congr hpeek]
      exact hs
  · intro s
    have hpeek : (setRecord name record s).peek (kvKey (flagOf name)) = _ := peek_flag record s
    change if record.encrypted then _ else _
    rw [KvRecord.flag] at hpeek
    split_ifs with henc
    · rw [if_pos henc] at hpeek
      exact congrArg Prod.fst hpeek
    · rw [if_neg henc] at hpeek
      rw [← Bool.not_eq_true, has_iff_peek, hpeek]
      simp [put]

end Harmless

theorem slots_of_not_isKv {record : Record} (h : ∀ key, record ≠ .kv key) :
    ∀ slot ∈ record.slots, ¬ slot.IsKv := by
  rintro slot hslot ⟨key, rfl⟩
  cases record with
  | kv other => exact h other rfl
  | _ => simp [Record.slots, Record.main] at hslot

theorem isKv_of_record {key : Text} (h : item.record? = some (.kv key)) : item.IsKv := by
  cases item with
  | kv name record => trivial
  | activityLog entries => cases h
  | client name _ | adminAcl name _ | queue name _ | deviceToApp name _ => cases name <;> cases h

theorem exists_record {name : Text} (haccepts : (item.task cfg).Accepts name) :
    ∃ record, item.record? = some record := by
  have hname := haccepts.2
  cases item with
  | activityLog entries => exact ⟨_, rfl⟩
  | client _ _ | adminAcl _ _ | kv _ _ | queue _ _ | deviceToApp _ _ =>
      obtain rfl := Str.encode_ok.mp hname
      exact ⟨_, rfl⟩

theorem preserves_of_harmless (hskip : cfg.forceOverwrite = false)
    (hids : ∀ (id : StreamId) req, cfg.parseId id.text = some req → req = .exact id)
    (hok : (applyEnvelope cfg env store).1 = .ok result) (h : Harmless cfg env store) :
    Preserves cfg env store result := by
  have hrun := (applyEnvelope_ok_iff.mp hok).1
  refine ⟨?_, fun item hitem => accounted_of_mem hskip hok hitem, ?_⟩
  · intro record hexists slot hslot
    by_cases hkv : ∃ key, record = .kv key
    · obtain ⟨key, rfl⟩ := hkv
      obtain ⟨hvalue, hflag⟩ := frame_kv hskip hrun h.flags hexists
      rcases List.mem_pair.mp hslot with rfl | rfl
      · exact hvalue
      · exact hflag
    · have hslotKv := slots_of_not_isKv (fun key heq => hkv ⟨key, heq⟩) slot hslot
      by_contra hchanged
      obtain ⟨before, item, hreaches, hitem⟩ := exists_reaches_of_changed hslotKv hchanged
      obtain ⟨⟨after, hsplit⟩, -⟩ := hreaches.1, hreaches.2
      have hrecord := record_of_slot hslotKv hitem hslot
      have hitemKv := not_isKv_of_mem_slot hitem hslotKv
      have hidle := h.idle item (by simp [hsplit]) hitemKv record hrecord hexists
      exact hchanged ((idle_of_reaches hreaches hitemKv).mpr hidle slot hitem)
  · intro item hitem hrestored
    obtain ⟨before, after, hsplit⟩ := List.append_of_mem hitem
    have hfinds := (restored_iff_finds hskip hok hsplit).mp hrestored
    by_cases hkv : item.IsKv
    · cases item with
      | kv key record =>
          obtain ⟨name, haccepts, habsent⟩ := hfinds
          obtain rfl := Str.encode_ok.mp haccepts.2
          have hlands := (finds_iff_lands hsplit).mp ⟨name, haccepts, habsent⟩
          refine ⟨get_of_lands hskip hrun h.flags hlands, ?_⟩
          rw [← kvKey_flagOf]
          exact flag_of_lands hskip hrun h.flags hlands
      | _ => exact absurd hkv id
    · refine stored_of_not_isKv hids hrun hsplit hkv hfinds fun entries hentries => ?_
      obtain ⟨name, haccepts, habsent⟩ := hfinds
      refine h.ids item hitem entries hentries name haccepts ?_
      rwa [Item.present_congr haccepts fun slot hslot => (peek_before (reaches_of_ok hrun hsplit)
        hslot (not_isKv_of_mem_slots hkv slot hslot)).symm]

theorem Preserves.value {key : Text} (h : Preserves cfg env store result)
    (hthere : store.has (kvKey key) = true) :
    (applyEnvelope cfg env store).2.peek (kvKey key) = store.peek (kvKey key) :=
  h.frame (.kv key) hthere (.kv key) (by simp [Record.slots])

theorem Preserves.flag {key : Text} (h : Preserves cfg env store result)
    (hthere : store.has (kvKey key) = true) :
    (applyEnvelope cfg env store).2.peek (kvKey (flagOf key)) = store.peek (kvKey (flagOf key)) :=
  h.frame (.kv key) hthere (.flag key) (by simp [Record.slots])

section Preserved

variable (hskip : cfg.forceOverwrite = false) (hok : (applyEnvelope cfg env store).1 = .ok result)
  (h : Preserves cfg env store result)

include hskip hok h

theorem stored_kv (hlands : Lands cfg env.items before (.start store) name record) :
    (Item.kv (.text name) record).StoredIn cfg (applyEnvelope cfg env store).2 := by
  obtain ⟨after, hsplit⟩ := hlands.split
  have hrestored := (restored_iff_finds hskip hok hsplit).mpr ((finds_iff_lands hsplit).mpr hlands)
  exact h.stored _ (by simp [hsplit]) hrestored

theorem encrypted_of_preserves {base : Text}
    (hlands : Lands cfg env.items before (.start store) base record)
    (hthere : store.has (kvKey (flagOf base)) = true) : record.encrypted = true := by
  obtain ⟨-, hflag⟩ := stored_kv hskip hok h hlands
  by_contra hplain
  rw [if_neg hplain, absent_of_encKey, has_congr (h.value hthere), hthere] at hflag
  cases hflag

theorem stored_of_fresh (hlets : LetsIn cfg env name record) (hfresh : Fresh cfg env store name) :
    (Item.kv (.text name) record).StoredIn cfg (applyEnvelope cfg env store).2 := by
  have hrun := (applyEnvelope_ok_iff.mp hok).1
  obtain ⟨before, after, hsplit⟩ := List.append_of_mem hlets.1
  have habsent := (absent_iff_fresh hskip hrun (fun first base other hlands _ hthere =>
    encrypted_of_preserves hskip hok h hlands hthere) hsplit).mpr hfresh
  exact stored_kv hskip hok h ⟨⟨after, hsplit⟩, hlets.accepts, habsent⟩

theorem flagsApart_of_preserves (hlets : LetsIn cfg env name record)
    (hfresh : Fresh cfg env store name) : FlagsApart cfg env store name record := by
  obtain ⟨hvalue, hflag⟩ := stored_of_fresh hskip hok h hlets hfresh
  have hnew := (fresh_iff.mp hfresh).1
  refine ⟨?_, ?_, ?_⟩
  · rintro base rfl
    by_contra hthere
    have hget : (applyEnvelope cfg env store).2.get (kvKey (flagOf base)) =
        store.get (kvKey (flagOf base)) := congrArg Prod.fst (h.flag (by simpa using hthere))
    have hnone : store.get (kvKey (flagOf base)) = none := by
      simp only [Store.has, Bool.or_eq_false_iff, Option.isSome_eq_false_iff,
        Option.isNone_iff_eq_none] at hnew
      exact hnew.1
    rw [hget, hnone] at hvalue
    cases hvalue
  · intro hthere
    rw [absent_of_encKey] at hthere
    have hget : (applyEnvelope cfg env store).2.get (kvKey (flagOf name)) =
        store.get (kvKey (flagOf name)) := congrArg Prod.fst (h.value hthere)
    by_cases henc : record.encrypted = true
    · rw [if_pos henc, ← kvKey_flagOf, hget, kvKey_flagOf] at hflag
      exact ⟨henc, hflag⟩
    · rw [if_neg henc, absent_of_encKey, has_congr (h.value hthere), hthere] at hflag
      cases hflag
  · intro flag hletsFlag hfreshFlag
    obtain ⟨hget, -⟩ := stored_of_fresh hskip hok h hletsFlag hfreshFlag
    rw [kvKey_flagOf] at hget
    by_cases henc : record.encrypted = true
    · rw [if_pos henc, hget] at hflag
      exact ⟨henc, Option.some.inj hflag⟩
    · rw [if_neg henc] at hflag
      simp [Store.has, hget] at hflag

theorem ids_of_preserves {entries : List StreamEntry} (hitem : item ∈ env.items)
    (hentries : item.streamEntries? = some entries) (haccepts : (item.task cfg).Accepts name)
    (habsent : (item.task cfg).present name store = false) :
    ∀ entry ∈ entries, ∃ id : StreamId, entry.id = .text id.text := by
  have hrun := (applyEnvelope_ok_iff.mp hok).1
  obtain ⟨before, after, hsplit⟩ := List.append_of_mem hitem
  have hkv : ¬ item.IsKv := by
    intro hkv
    cases item with
    | kv key record => cases hentries
    | _ => exact hkv
  have hfinds : item.Finds cfg store before false := by
    refine ⟨name, haccepts, ?_⟩
    rwa [Item.present_congr haccepts fun slot hslot => peek_before (reaches_of_ok hrun hsplit)
      hslot (not_isKv_of_mem_slots hkv slot hslot)]
  have hstored := h.stored item hitem ((restored_iff_finds hskip hok hsplit).mpr hfinds)
  have hall {held : List Entry} (hholds : List.Forall₂ Holds held entries) :
      ∀ entry ∈ entries, ∃ id : StreamId, entry.id = .text id.text := by
    clear hentries
    induction hholds with
    | nil => simp
    | @cons stored _ _ _ hfirst _ ih =>
        rw [List.forall_mem_cons]
        exact ⟨⟨stored.id, hfirst.1⟩, ih⟩
  have hname := haccepts.2
  cases item with
  | queue topic queued =>
      obtain rfl := Str.encode_ok.mp hname
      obtain rfl := Option.some.inj hentries
      exact hall hstored
  | activityLog logged =>
      obtain rfl := Option.some.inj hentries
      exact hall hstored
  | _ => cases hentries

end Preserved

-- A restore that may not overwrite preserves what is there exactly when what it writes is
-- harmless.
theorem preserves_iff_harmless (hskip : cfg.forceOverwrite = false)
    (hids : ∀ (id : StreamId) req, cfg.parseId id.text = some req → req = .exact id)
    (hok : (applyEnvelope cfg env store).1 = .ok result) :
    Preserves cfg env store result ↔ Harmless cfg env store := by
  refine ⟨fun h => ⟨?_, ?_, ?_⟩, preserves_of_harmless hskip hids hok⟩
  · intro item hitem hkv record hrecord hexists
    obtain ⟨before, after, hsplit⟩ := List.append_of_mem hitem
    have hreaches := reaches_of_ok (applyEnvelope_ok_iff.mp hok).1 hsplit
    refine (idle_of_reaches hreaches hkv).mp fun slot hslot => ?_
    rw [slots_of_record hrecord] at hslot
    exact h.frame record hexists slot hslot
  · intro name record hlets hfresh
    exact flagsApart_of_preserves hskip hok h hlets hfresh
  · intro item hitem entries hentries name haccepts habsent
    exact ids_of_preserves hskip hok h hitem hentries haccepts habsent

-- A restore of everything that may not overwrite.
def Restoring.careful : Restoring where
  jsonDepth := 8
  parseId text := (StreamId.parse text).map .exact
  nowMs := 0
  forceOverwrite := false
  appFilter := none

-- A value under a key that is the flag of another.
def flagAsValue : Value :=
  object [("stra2us_backup_version".toList, .int 1), ("dump_kind".toList, .str "whole".toList),
    ("data".toList, object [
      ("kv".toList, object [(flagOf ['k'], object [("value".toList, .str [])])])])]

theorem flagAsValue_preserves_empty : ∃ env result,
    BackupEnvelope.fromJson (fun _ => .text []) flagAsValue = .ok env ∧
      (applyEnvelope .careful env .empty).1 = .ok result ∧
        Preserves .careful env .empty result := by
  refine ⟨_, _, rfl, rfl, (preserves_iff_harmless rfl ?_ rfl).mpr ⟨?_, ?_, ?_⟩⟩
  · intro id req hreq
    change (StreamId.parse id.text).map IdRequest.exact = some req at hreq
    rw [StreamId.parse_text] at hreq
    exact (Option.some.inj hreq).symm
  · intro item hitem hkv
    obtain rfl := List.mem_singleton.mp hitem
    exact absurd trivial hkv
  · intro name record hlets _
    obtain ⟨hname, -⟩ := Item.kv.inj (List.mem_singleton.mp hlets.1)
    refine ⟨fun base _ => rfl, fun hthere => (nomatch hthere), fun flag hflag _ => ?_⟩
    obtain ⟨hflagName, -⟩ := Item.kv.inj (List.mem_singleton.mp hflag.1)
    exact absurd (Str.text.inj (hflagName.trans hname.symm)) (flagOf_ne name)
  · intro item hitem entries hentries
    obtain rfl := List.mem_singleton.mp hitem
    cases hentries

-- The plain value that is there becomes an encrypted one.
theorem flagAsValue_not_preserves : ∃ env result,
    BackupEnvelope.fromJson (fun _ => .text []) flagAsValue = .ok env ∧
      (applyEnvelope .careful env (Store.empty.set (kvKey ['k']) [])).1 = .ok result ∧
        ¬ Preserves .careful env (Store.empty.set (kvKey ['k']) []) result := by
  refine ⟨_, _, rfl, rfl, fun h => ?_⟩
  have hthere : (Store.empty.set (kvKey ['k']) []).has (kvKey ['k']) = true := rfl
  have hflag := congrArg Prod.fst (h.flag hthere)
  cases hflag

end Preserves

end Stra2us.Backup
