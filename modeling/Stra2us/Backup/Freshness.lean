import Stra2us.Backup.Atomicity
import Stra2us.Backup.Report

namespace Stra2us.Backup

open Foundation Server

section Turns

variable {cfg : Restoring} {items : List Item} {item : Item} {name key : Text} {s : State}

theorem flagOf_injective : Function.Injective flagOf :=
  fun _ _ h => List.append_cancel_right h

theorem label_of_brings (h : item.Brings cfg name) : item.label = .kv (.text name) := by
  obtain ⟨record, rfl, -⟩ := h
  rfl

-- Two entries can change what is at a value's key: its own, and the one it may be the flag of.
theorem slots_apart (hown : item.label ≠ .kv (.text key))
    (hbase : ∀ base, flagOf base = key → item.label ≠ .kv (.text base)) :
    ∀ slot ∈ item.slots, slot.key ≠ kvKey key := by
  intro slot hslot hkey
  obtain rfl : slot = .kv key := Slot.key_injective hkey
  cases item with
  | kv other record =>
      cases other with
      | surrogates units => exact absurd hslot List.not_mem_nil
      | text other =>
          rcases List.mem_pair.mp hslot with hsame | hflag
          · obtain rfl := Slot.kv.inj hsame
            exact hown rfl
          · exact hbase other (Slot.kv.inj hflag).symm rfl
  | _ => exact not_isKv_of_mem_slots id _ hslot ⟨key, rfl⟩

theorem peek_quiet (hown : ∀ b ∈ items, b.label ≠ .kv (.text key))
    (hbase : ∀ b ∈ items, ∀ base, flagOf base = key → b.label ≠ .kv (.text base)) (s : State) :
    (batch (restoreItem cfg) items s).2.store.peek (kvKey key) = s.store.peek (kvKey key) :=
  peek_batch cfg (fun b hb => slots_apart (hown b hb) (hbase b hb)) s

theorem store_of_absent {record : KvRecord}
    (haccepts : (restoreKv cfg (.text name) record).Accepts name)
    (habsent : s.store.has (kvKey name) = false) :
    (restoreItem cfg (.kv (.text name) record) s).2.store = setRecord name record s.store := by
  have hskips : ¬ (restoreKv cfg (.text name) record).Skips cfg.forceOverwrite name s.store := by
    intro h
    rw [show s.store.has (kvKey name) = true from h.1] at habsent
    cases habsent
  exact (Task.run_written haccepts hskips).2.1

def KvRecord.flag (record : KvRecord) : Option Bytes :=
  if record.encrypted then some (utf8 "1".toList) else none

theorem peek_own (record : KvRecord) (store : Store) :
    (setRecord name record store).peek (kvKey name) =
      put (store.peek (kvKey name)) (some record.value) := by
  rw [peek_setRecord_eq, recordPuts, if_pos rfl]
  rfl

theorem peek_flag (record : KvRecord) (store : Store) :
    (setRecord name record store).peek (kvKey (flagOf name)) =
      put (store.peek (kvKey (flagOf name))) record.flag := by
  rw [peek_setRecord_eq, recordPuts, if_neg (flagOf_ne name).symm, if_pos rfl]
  rfl

-- A value that is let through when nothing is found at its key.
structure Lands (cfg : Restoring) (items first : List Item) (s : State) (base : Text)
    (record : KvRecord) : Prop where
  split : ∃ rest, items = first ++ .kv (.text base) record :: rest
  accepts : (restoreKv cfg (.text base) record).Accepts base
  absent : (batch (restoreItem cfg) first s).2.store.has (kvKey base) = false

theorem peek_of_lands {first : List Item} {base : Text} {record : KvRecord}
    (hok : (batch (restoreItem cfg) items s).1 = .ok ()) (hnodup : (items.map Item.label).Nodup)
    (hown : ∀ b ∈ items, b.label ≠ .kv (.text (flagOf base)))
    (h : Lands cfg items first s base record) :
    (batch (restoreItem cfg) items s).2.store.peek (kvKey (flagOf base)) =
      put (s.store.peek (kvKey (flagOf base))) record.flag := by
  obtain ⟨rest, rfl⟩ := h.split
  rw [List.map_append, List.map_cons, List.nodup_append, List.nodup_cons] at hnodup
  obtain ⟨-, ⟨hrest, -⟩, hfirst⟩ := hnodup
  have hquiet (part : List Item) (hpart : ∀ b ∈ part, b ∈ first ++ .kv (.text base) record :: rest)
      (hne : ∀ b ∈ part, b.label ≠ .kv (.text base)) (s : State) :
      (batch (restoreItem cfg) part s).2.store.peek (kvKey (flagOf base)) =
        s.store.peek (kvKey (flagOf base)) := by
    refine peek_quiet (fun b hb => hown b (hpart b hb)) (fun b hb other hother => ?_) s
    rw [flagOf_injective hother]
    exact hne b hb
  have hfirstNe : ∀ b ∈ first, b.label ≠ .kv (.text base) := by
    intro b hb
    exact hfirst b.label (List.mem_map_of_mem hb) _ List.mem_cons_self
  have hrestNe : ∀ b ∈ rest, b.label ≠ .kv (.text base) := by
    intro b hb heq
    apply hrest
    rw [show (Item.kv (.text base) record).label = b.label from heq.symm]
    exact List.mem_map_of_mem hb
  cases hrun : (batch (restoreItem cfg) first s).1 with
  | error exn =>
      rw [batch_append_error hrun, hrun] at hok
      cases hok
  | ok value =>
      have hstep : (restoreItem cfg (.kv (.text base) record)
          (batch (restoreItem cfg) first s).2).1 = .ok () :=
        restoreItem_ok_iff.mpr (.inr ⟨base, h.accepts, .inr trivial⟩)
      rw [batch_append_ok hrun, batch_cons_ok hstep,
        hquiet rest (fun b hb => by simp [hb]) hrestNe, store_of_absent h.accepts h.absent,
        peek_flag, hquiet first (fun b hb => by simp [hb]) hfirstNe]

theorem peek_of_not_lands (hskip : cfg.forceOverwrite = false)
    (hown : ∀ b ∈ items, b.label ≠ .kv (.text key))
    (h : ∀ first base record, flagOf base = key → ¬ Lands cfg items first s base record) :
    (batch (restoreItem cfg) items s).2.store.peek (kvKey key) = s.store.peek (kvKey key) := by
  let same (s' : State) : Prop := s'.store.peek (kvKey key) = s.store.peek (kvKey key)
  suffices hstep : ∀ before item, Reaches (restoreItem cfg) items before item s →
      same (batch (restoreItem cfg) before s).2 →
        same (restoreItem cfg item (batch (restoreItem cfg) before s).2).2 from
    batch_invariant_of_reaches hstep rfl
  intro before item hreaches hsame
  change (restoreItem cfg item (batch (restoreItem cfg) before s).2).2.store.peek (kvKey key) = _
  by_cases hbase : ∃ base, flagOf base = key ∧ item.Brings cfg base
  · obtain ⟨base, hflag, hbrings⟩ := hbase
    obtain ⟨rest, hsplit⟩ := hreaches.1
    have hpresent : (batch (restoreItem cfg) before s).2.store.has (kvKey base) = true := by
      by_contra habsent
      obtain ⟨record, rfl, haccepts⟩ := hbrings
      exact h before base record hflag ⟨⟨rest, hsplit⟩, haccepts, by simpa using habsent⟩
    rw [restoreItem_of_present hskip hbrings hpresent]
    exact hsame
  · refine Eq.trans ?_ hsame
    by_cases hbrings : ∃ name, item.Brings cfg name
    · obtain ⟨name, hbrings⟩ := hbrings
      apply peek_restoreItem
      obtain ⟨rest, hsplit⟩ := hreaches.1
      have hmem : item ∈ items := by simp [hsplit]
      refine slots_apart (hown item hmem) fun base hflag hlabel => hbase ⟨base, hflag, ?_⟩
      rw [label_of_brings hbrings] at hlabel
      obtain rfl := Str.text.inj (Label.kv.inj hlabel)
      exact hbrings
    · exact restoreItem_of_not_brings (fun name hname => hbrings ⟨name, hname⟩) key _

end Turns

section Fresh

variable {cfg : Restoring} {env : BackupEnvelope} {store : Store} {name : Text}

theorem length_lt_flagOf (key : Text) : key.length < (flagOf key).length := by
  have hsuffix : ":enc".toList.length = 4 := by decide
  unfold flagOf
  rw [List.length_append]
  omega

def Earlier (env : BackupEnvelope) (first second : Item) : Prop :=
  [first, second].Sublist env.items

-- There is no value at the key, and no encrypted one is restored earlier that has its flag there.
def Fresh (cfg : Restoring) (env : BackupEnvelope) (store : Store) (name : Text) : Prop :=
  store.has (kvKey name) = false ∧ ∀ base, flagOf base = name → ∀ record record',
    Earlier env (.kv (.text base) record) (.kv (.text name) record') →
      (restoreKv cfg (.text base) record).refused = .ok false → record.encrypted = true →
        ¬ Fresh cfg env store base
termination_by name.length
decreasing_by
  rename_i hflag _ _ _
  rw [← hflag]
  exact length_lt_flagOf base

theorem fresh_iff : Fresh cfg env store name ↔ store.has (kvKey name) = false ∧
    ∀ base, flagOf base = name → ∀ record record',
      Earlier env (.kv (.text base) record) (.kv (.text name) record') →
        (restoreKv cfg (.text base) record).refused = .ok false → record.encrypted = true →
          ¬ Fresh cfg env store base := by
  rw [Fresh]

-- An envelope has a key once.
theorem record_unique {key : Str} {record record' : KvRecord} (h : .kv key record ∈ env.items)
    (h' : .kv key record' ∈ env.items) : record = record' := by
  have hsame : Item.kv key record = .kv key record' :=
    List.inj_on_of_nodup_map (nodup_labels env) h h' rfl
  exact (Item.kv.inj hsame).2

theorem Earlier.mem_first {first second : Item} (h : Earlier env first second) :
    first ∈ env.items :=
  h.subset (by simp)

theorem Earlier.mem_second {first second : Item} (h : Earlier env first second) :
    second ∈ env.items :=
  h.subset (by simp)

variable {before after : List Item} {item other : Item}

-- What comes earlier is what stands in front.
theorem earlier_iff (hsplit : env.items = before ++ item :: after) :
    Earlier env other item ↔ other ∈ before := by
  obtain ⟨hbefore, hafter⟩ := label_ne_of_split hsplit
  unfold Earlier
  rw [hsplit]
  constructor
  · intro hsub
    have hitemBefore : item ∉ before := fun hmem => hbefore item hmem rfl
    have hitemAfter : item ∉ after := fun hmem => hafter item hmem rfl
    obtain ⟨front, back, heq, hfront, hback⟩ := List.sublist_append_iff.mp hsub
    cases front with
    | cons first front =>
        obtain ⟨rfl, -⟩ := List.cons.inj heq
        exact hfront.subset (by simp)
    | nil =>
        rw [List.nil_append] at heq
        subst heq
        rcases List.sublist_cons_iff.mp hback with hlater | ⟨tail, htail, hlater⟩
        · exact absurd (hlater.subset (by simp)) hitemAfter
        · obtain ⟨-, rfl⟩ := List.cons.inj htail
          exact absurd (hlater.subset (by simp)) hitemAfter
  · intro hmem
    have hfront : [other].Sublist before := List.singleton_sublist.mpr hmem
    have hback : [item].Sublist (item :: after) := List.singleton_sublist.mpr (by simp)
    exact hfront.append hback

-- When no fresh value takes away a flag that was there, the fresh values are those that land.
theorem absent_iff_fresh (hskip : cfg.forceOverwrite = false)
    (hok : (batch (restoreItem cfg) env.items (.start store)).1 = .ok ())
    (hflag : ∀ first base record, Lands cfg env.items first (.start store) base record →
      Fresh cfg env store base → store.has (kvKey (flagOf base)) = true → record.encrypted = true)
    {record : KvRecord} (hsplit : env.items = before ++ .kv (.text name) record :: after) :
    (batch (restoreItem cfg) before (.start store)).2.store.has (kvKey name) = false ↔
      Fresh cfg env store name := by
  induction hlen : name.length using Nat.strong_induction_on generalizing name record before after with
  | _ n ih =>
      have hbefore := (reaches_of_ok hok hsplit).2
      have hown := (label_ne_of_split hsplit).1
      have hnodup : (before.map Item.label).Nodup := by
        have hall := nodup_labels env
        rw [hsplit, List.map_append, List.nodup_append] at hall
        exact hall.1
      have hearlier (base : Text) (record' : KvRecord) (first rest : List Item)
          (hfirst : before = first ++ .kv (.text base) record' :: rest) : env.items =
            first ++ .kv (.text base) record' :: (rest ++ .kv (.text name) record :: after) := by
        rw [hsplit, hfirst]
        simp
      have hshorter (base : Text) (hbase : flagOf base = name) : base.length < n := by
        rw [← hlen, ← hbase]
        exact length_lt_flagOf base
      rw [fresh_iff]
      by_cases hlands : ∃ first base record', flagOf base = name ∧
          Lands cfg before first (.start store) base record'
      · obtain ⟨first, base, record', rfl, hlands⟩ := hlands
        obtain ⟨rest, hfirst⟩ := hlands.split
        have hsplit' := hearlier base record' first rest hfirst
        have hfresh : Fresh cfg env store base :=
          (ih base.length (hshorter base rfl) hsplit' rfl).mp hlands.absent
        have hpeek := peek_of_lands hbefore hnodup hown hlands
        have hmem : Item.kv (.text base) record' ∈ before := by simp [hfirst]
        have hmem' : Item.kv (.text base) record' ∈ env.items := by simp [hsplit']
        cases hencrypted : record'.encrypted with
        | true =>
            refine iff_of_false ?_ ?_
            · rw [KvRecord.flag, if_pos hencrypted] at hpeek
              rw [Bool.not_eq_false, has_iff_peek, hpeek]
              exact .inl rfl
            · rintro ⟨-, hnone⟩
              exact hnone base rfl record' record ((earlier_iff hsplit).mpr hmem)
                hlands.accepts.1 hencrypted hfresh
        | false =>
            refine iff_of_true ?_ ⟨?_, ?_⟩
            · rw [KvRecord.flag, if_neg (by simp [hencrypted])] at hpeek
              rw [← Bool.not_eq_true, has_iff_peek, hpeek]
              simp [put]
            · by_contra hthere
              have henc := hflag first base record' ⟨⟨_, hsplit'⟩, hlands.accepts, hlands.absent⟩
                hfresh (by simpa using hthere)
              rw [hencrypted] at henc
              cases henc
            · intro other hother record'' ours hbefore' _ henc
              obtain rfl := flagOf_injective hother
              rw [record_unique hbefore'.mem_first hmem', hencrypted] at henc
              cases henc
      · have hpeek := peek_of_not_lands hskip hown fun first base record' hbase hlands' =>
          hlands ⟨first, base, record', hbase, hlands'⟩
        rw [has_congr hpeek]
        refine ⟨fun habsent => ⟨habsent, ?_⟩, fun h => h.1⟩
        intro base hbase record' ours hbefore' haccepts henc hfresh
        have hitem : Item.kv (.text name) record ∈ env.items := by simp [hsplit]
        rw [record_unique hbefore'.mem_second hitem] at hbefore'
        obtain ⟨first, rest, hfirst⟩ := List.append_of_mem ((earlier_iff hsplit).mp hbefore')
        have hlandsAbsent := (ih base.length (hshorter base hbase)
          (hearlier base record' first rest hfirst) rfl).mpr hfresh
        exact hlands ⟨first, base, record', hbase, ⟨rest, hfirst⟩, ⟨haccepts, rfl⟩, hlandsAbsent⟩

end Fresh

end Stra2us.Backup
