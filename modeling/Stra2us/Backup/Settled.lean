import Stra2us.Backup.Preserves
import Stra2us.Backup.Reapply

namespace Stra2us.Backup

open Foundation Server

section Absence

variable (cfg : Restoring) (store : Store)

-- A plain value comes in under the name, and takes the flag away.
def Item.Clears (item : Item) (name : Text) : Prop :=
  ∃ record, item = .kv (.text name) record ∧ (restoreKv cfg (.text name) record).Accepts name ∧
    record.encrypted = false

-- Nothing is stored under a key once the entries had their turn, the last of them first.
-- An entry has an effect where its own key is absent.
def Absent : List Item → Text → Prop
  | [], key => store.has (kvKey key) = false
  | item :: earlier, key =>
      (∃ name, item.Clears cfg name ∧ flagOf name = key ∧ Absent earlier name) ∨
        (Absent earlier key ∧ ∀ name, item.Brings cfg name →
          name ≠ key ∧ (flagOf name = key → ¬ Absent earlier name))

variable {cfg store} {env : BackupEnvelope} {item : Item} {s : State} {key name : Text}

theorem Item.Clears.brings (h : item.Clears cfg name) : item.Brings cfg name := by
  obtain ⟨record, rfl, haccepts, -⟩ := h
  exact ⟨record, rfl, haccepts⟩

theorem Item.Brings.unique {other : Text} (h : item.Brings cfg name)
    (hother : item.Brings cfg other) : name = other := by
  obtain ⟨record, rfl, -⟩ := h
  obtain ⟨record', heq, -⟩ := hother
  exact Str.text.inj (Item.kv.inj heq).1

theorem has_congr_restored (h : (restoreItem cfg item s).2.store.peek (kvKey key) =
    s.store.peek (kvKey key)) :
    (restoreItem cfg item s).2.store.has (kvKey key) = s.store.has (kvKey key) :=
  has_congr h

theorem has_setRecord (record : KvRecord) (store : Store) :
    (setRecord name record store).has (kvKey key) =
      if name = key then true
      else if flagOf name = key then record.encrypted
      else store.has (kvKey key) := by
  have hpeek := peek_setRecord_eq name key record store
  have hfst := congrArg Prod.fst hpeek
  have hsnd := congrArg Prod.snd hpeek
  change (setRecord name record store).get (kvKey key) = _ at hfst
  change (setRecord name record store).stream? (kvKey key) = _ at hsnd
  unfold Store.has
  rw [hfst, hsnd]
  unfold recordPuts
  split
  · rfl
  · split
    · cases record.encrypted <;> rfl
    · rfl

-- What one entry makes of a key, where nothing is overwritten.
theorem has_step (hforce : cfg.forceOverwrite = false) :
    (restoreItem cfg item s).2.store.has (kvKey key) = false ↔
      (∃ name, item.Clears cfg name ∧ flagOf name = key ∧ s.store.has (kvKey name) = false) ∨
        (s.store.has (kvKey key) = false ∧ ∀ name, item.Brings cfg name →
          name ≠ key ∧ (flagOf name = key → s.store.has (kvKey name) = true)) := by
  by_cases hbrings : ∃ name, item.Brings cfg name
  · obtain ⟨name, hbrings⟩ := hbrings
    have hall {p : Text → Prop} : (∀ other, item.Brings cfg other → p other) ↔ p name := by
      constructor
      · exact fun h => h name hbrings
      · intro h other hother
        exact hbrings.unique hother ▸ h
    rw [hall]
    by_cases hpresent : s.store.has (kvKey name) = true
    · rw [restoreItem_of_present hforce hbrings hpresent]
      constructor
      · intro habsent
        refine .inr ⟨habsent, ?_, fun _ => hpresent⟩
        rintro rfl
        rw [hpresent] at habsent
        cases habsent
      · rintro (⟨other, hclears, -, habsent⟩ | ⟨habsent, -⟩)
        · obtain rfl := hbrings.unique hclears.brings
          rw [hpresent] at habsent
          cases habsent
        · exact habsent
    · have habsent : s.store.has (kvKey name) = false := Bool.eq_false_iff.mpr hpresent
      obtain ⟨record, rfl, haccepts⟩ := hbrings
      have hclears (other : Text) : (Item.kv (.text name) record).Clears cfg other ↔
          other = name ∧ record.encrypted = false := by
        constructor
        · rintro ⟨record', heq, -, hplain⟩
          obtain ⟨hname, rfl⟩ := Item.kv.inj heq
          exact ⟨(Str.text.inj hname).symm, hplain⟩
        · rintro ⟨rfl, hplain⟩
          exact ⟨record, rfl, haccepts, hplain⟩
      have hskips : ¬ (restoreKv cfg (.text name) record).Skips cfg.forceOverwrite name s.store :=
        fun h => hpresent h.1
      have hwritten : (restoreItem cfg (.kv (.text name) record) s).2.store =
          setRecord name record s.store := (Task.run_written haccepts hskips).2.1
      simp only [hclears, and_assoc, exists_eq_left]
      rw [hwritten, has_setRecord, habsent]
      by_cases hname : name = key
      · simp only [hname, if_true, Bool.true_eq_false, ne_eq, not_true, false_and, and_false,
          or_false, false_iff]
        exact fun h => flagOf_ne key h.2.1
      · by_cases hflag : flagOf name = key
        · simp [hname, hflag]
        · simp [hname, hflag]
  · have hnot : ∀ name, ¬ item.Brings cfg name := fun name h => hbrings ⟨name, h⟩
    rw [has_congr_restored (restoreItem_of_not_brings hnot key s)]
    constructor
    · exact fun h => .inr ⟨h, fun name hname => absurd hname (hnot name)⟩
    · rintro (⟨name, hclears, -⟩ | ⟨h, -⟩)
      · exact absurd hclears.brings (hnot name)
      · exact h

theorem absent_iff (hforce : cfg.forceOverwrite = false) {items : List Item}
    (hok : (batch (restoreItem cfg) items (.start store)).1 = .ok ()) :
    Absent cfg store items.reverse key ↔
      (batch (restoreItem cfg) items (.start store)).2.store.has (kvKey key) = false := by
  induction items using List.reverseRecOn generalizing key with
  | nil => exact Iff.rfl
  | append_singleton items item ih =>
      cases hrun : (batch (restoreItem cfg) items (.start store)).1 with
      | error exn =>
          rw [batch_append_error hrun, hrun] at hok
          cases hok
      | ok value =>
          have hstep : (batch (restoreItem cfg) (items ++ [item]) (.start store)).2 =
              (restoreItem cfg item (batch (restoreItem cfg) items (.start store)).2).2 := by
            rw [batch_append_ok hrun] at hok ⊢
            cases hone : (restoreItem cfg item
                (batch (restoreItem cfg) items (.start store)).2).1 with
            | ok value => rw [batch_cons_ok hone, batch_nil]
            | error exn => rw [batch_cons_error hone]
          rw [List.reverse_append, List.reverse_singleton, List.singleton_append, Absent, hstep,
            has_step hforce]
          simp only [ih hrun, Bool.not_eq_false]

end Absence

section Presence

variable {cfg : Restoring} {env : BackupEnvelope} {store : Store} {before mid after : List Item}
  {item later : Item} {name base : Text}

theorem fits_of_brings (h : item.Brings cfg name) : item.Fits cfg store := by
  obtain ⟨record, rfl, haccepts⟩ := h
  exact .inr ⟨name, haccepts, .inr trivial⟩

theorem batch_snoc {items : List Item} {s : State}
    (hok : (batch (restoreItem cfg) items s).1 = .ok ()) :
    (batch (restoreItem cfg) (items ++ [item]) s).2 =
      (restoreItem cfg item (batch (restoreItem cfg) items s).2).2 := by
  rw [batch_append_ok hok]
  cases hone : (restoreItem cfg item (batch (restoreItem cfg) items s).2).1 with
  | ok value => rw [batch_cons_ok hone, batch_nil]
  | error exn => rw [batch_cons_error hone]

-- A value that came in is there until an entry takes it for a flag.
theorem has_until (hforce : cfg.forceOverwrite = false) (hbrings : item.Brings cfg name)
    (hsplit : env.items = (before ++ item :: mid) ++ after)
    (hfits : ∀ b ∈ before ++ item :: mid, b.Fits cfg store)
    (hkept : ∀ first later rest, mid = first ++ later :: rest → ∀ base, later.Clears cfg base →
      flagOf base = name → ¬ Absent cfg store (before ++ item :: first).reverse base) :
    (batch (restoreItem cfg) (before ++ item :: mid) (.start store)).2.store.has (kvKey name) =
      true := by
  induction mid using List.reverseRecOn generalizing after with
  | nil =>
      have hok : (batch (restoreItem cfg) before (.start store)).1 = .ok () :=
        (batch_ok_iff_fits (by rw [hsplit, List.append_assoc])).mpr fun b hb =>
          hfits b (List.mem_append_left _ hb)
      rw [batch_snoc hok]
      exact has_of_brings hforce hbrings
  | append_singleton mid later ih =>
      have hassoc : before ++ item :: (mid ++ [later]) = (before ++ item :: mid) ++ [later] := by
        simp
      rw [hassoc] at hsplit hfits ⊢
      have hsplit' : env.items = (before ++ item :: mid) ++ ([later] ++ after) := by
        rw [hsplit, List.append_assoc]
      have hfits' : ∀ b ∈ before ++ item :: mid, b.Fits cfg store := fun b hb =>
        hfits b (List.mem_append_left _ hb)
      have hok := (batch_ok_iff_fits hsplit').mpr hfits'
      have hbefore := ih hsplit' hfits' fun first other rest hmid =>
        hkept first other (rest ++ [later]) (by rw [hmid]; simp)
      rw [batch_snoc hok, ← Bool.not_eq_false, has_step hforce]
      rintro (⟨base, hclears, hflag, habsent⟩ | ⟨habsent, -⟩)
      · exact hkept mid later [] rfl base hclears hflag ((absent_iff hforce hok).mpr habsent)
      · rw [hbefore] at habsent
        cases habsent

-- No other entry of the envelope has to do with a flag that an entry took away after the value
-- under its key came in.
theorem lost_of_clears (hforce : cfg.forceOverwrite = false)
    (hsplit : env.items = before ++ later :: after) (hfits : ∀ b ∈ before, b.Fits cfg store)
    (hclears : later.Clears cfg base) (habsent : Absent cfg store before.reverse base)
    (hitem : item ∈ before) (hbrings : item.Brings cfg (flagOf base)) :
    (applyEnvelope cfg env store).2.has (kvKey (flagOf base)) = false := by
  have hok : (batch (restoreItem cfg) before (.start store)).1 = .ok () :=
    (batch_ok_iff_fits hsplit).mpr hfits
  have hstep : (restoreItem cfg later (batch (restoreItem cfg) before (.start store)).2).1 =
      .ok () := restoreItem_ok_iff.mpr (fits_of_brings hclears.brings)
  have hgone := (has_step (s := (batch (restoreItem cfg) before (.start store)).2) hforce).mpr
    (.inl ⟨base, hclears, rfl, (absent_iff hforce hok).mp habsent⟩)
  have happly : (applyEnvelope cfg env store).2 = (batch (restoreItem cfg) after
      (restoreItem cfg later (batch (restoreItem cfg) before (.start store)).2).2).2.store := by
    change (batch (restoreItem cfg) env.items (.start store)).2.store = _
    rw [hsplit, batch_append_ok hok, batch_cons_ok hstep]
  rw [happly, ← hgone]
  refine has_congr (peek_batch cfg (fun other hother slot hslot hkey => ?_) _)
  have hslotKey : slot = .kv (flagOf base) := Slot.key_injective hkey
  obtain ⟨record, rfl, -⟩ := hbrings
  obtain ⟨record', rfl, -⟩ := hclears
  have hlater := (label_ne_of_split hsplit).2 other hother
  obtain ⟨first, rest, rfl⟩ := List.append_of_mem hitem
  have hsplit' : env.items = first ++ .kv (.text (flagOf base)) record ::
      (rest ++ .kv (.text base) record' :: after) := by
    rw [hsplit]
    simp
  have hitem' := (label_ne_of_split hsplit').2 other (by simp [hother])
  cases other with
  | kv key otherRecord =>
      cases key with
      | surrogates units => exact absurd hslot List.not_mem_nil
      | text key =>
          rcases List.mem_pair.mp hslot with h | h
          · have hkeys : flagOf base = key := Slot.kv.inj (hslotKey.symm.trans h)
            exact hitem' (by rw [← hkeys]; rfl)
          · have hflags : flagOf base = flagOf key := Slot.kv.inj (hslotKey.symm.trans h)
            have hkeys : base = key := List.append_cancel_right hflags
            exact hlater (by rw [← hkeys]; rfl)
  | _ => exact not_isKv_of_mem_slots id slot hslot ⟨flagOf base, hslotKey⟩

end Presence

section Halves

variable (cfg : Restoring)

-- The first entry of a stream can be added.
def Starts (entries : List StreamEntry) : Prop :=
  ∃ entry rest, entries = entry :: rest ∧ ∃ grown, place cfg .empty entry = .ok grown

-- What such an entry writes before it fails is taken for the whole the next time.
def Item.HalfWritten (item : Item) : Prop :=
  (∃ name, (item.task cfg).Accepts name) ∧
    match item with
    | .client _ record => ∃ c rest, record.secret = .text (c :: rest)
    | .queue _ entries => Starts cfg entries
    | .activityLog entries => Starts cfg entries
    | _ => False

variable {cfg} {item : Item} {s : State} {name : Text} {entries : List StreamEntry}

theorem filled_some (stream : Stream) (entries : List StreamEntry) :
    ∃ grown, filled cfg (some stream) entries = some grown := by
  induction entries generalizing stream with
  | nil => exact ⟨stream, rfl⟩
  | cons entry rest ih =>
      rw [filled]
      cases place cfg ((some stream).getD .empty) entry with
      | ok grown => exact ih grown
      | error exn => exact ⟨stream, rfl⟩

theorem filled_none_iff : filled cfg none entries = none ↔ ¬ Starts cfg entries := by
  cases entries with
  | nil =>
      refine iff_of_true rfl ?_
      rintro ⟨entry, rest, h, -⟩
      cases h
  | cons entry rest =>
      rw [filled, Option.getD_none]
      cases hplace : place cfg .empty entry with
      | ok grown =>
          obtain ⟨final, hfinal⟩ := @filled_some cfg grown rest
          refine iff_of_false ?_ (not_not.mpr ⟨entry, rest, rfl, grown, hplace⟩)
          change filled cfg (some grown) rest ≠ none
          rw [hfinal]
          exact Option.some_ne_none final
      | error exn =>
          refine iff_of_true rfl ?_
          rintro ⟨other, others, heq, grown, hgrown⟩
          obtain ⟨rfl, rfl⟩ := List.cons.inj heq
          rw [hplace] at hgrown
          cases hgrown

theorem has_refill (key : Text) (entries : List StreamEntry) (store : Store) :
    (refill cfg key (store.has key) entries store).2.has key = true ↔ Starts cfg entries := by
  have hpeek := (refill_eq cfg key entries store).2
  rw [has_iff_peek, hpeek]
  change false = true ∨ (filled cfg none entries).isSome = true ↔ _
  rw [Option.isSome_iff_ne_none, Ne, filled_none_iff, not_not]
  exact or_iff_right Bool.false_ne_true

theorem truthy_utf8 (text : Text) :
    truthy (some (utf8 text)) = true ↔ ∃ c rest, text = c :: rest := by
  have hempty : utf8 text = [] ↔ text = [] :=
    ⟨fun h => utf8_injective (h.trans utf8_nil.symm), fun h => by rw [h, utf8_nil]⟩
  rw [← List.ne_nil_iff_exists_cons, Ne, ← hempty]
  cases utf8 text with
  | nil => exact iff_of_false Bool.false_ne_true fun h => h rfl
  | cons byte rest => exact iff_of_true rfl (List.cons_ne_nil byte rest)

theorem present_after_failure (haccepts : (item.task cfg).Accepts name)
    (hnew : (item.task cfg).present name s.store = false) (hstorable : ¬ item.Storable cfg) :
    (item.task cfg).present name
      ((item.task cfg).write name ((item.task cfg).present name s.store) s.store).2 = true ↔
      item.HalfWritten cfg := by
  unfold Item.HalfWritten
  rw [and_iff_right ⟨name, haccepts⟩]
  have hnone {value : Bool} {p : Prop} (h : value = false) (hp : ¬ p) : value = true ↔ p := by
    rw [h]
    exact iff_of_false Bool.false_ne_true hp
  cases item with
  | client cid record =>
      cases hsecret : record.secret with
      | surrogates units =>
          have hwrite : ((Item.client cid record).task cfg).write name
              (((Item.client cid record).task cfg).present name s.store) s.store =
                (.error (.python "UnicodeEncodeError".toList), s.store) := by
            change andThen (setStr _ (record.secret.encode.map utf8) s.store) _ = _
            rw [hsecret]
            rfl
          rw [hwrite]
          refine hnone hnew ?_
          rintro ⟨c, rest, h⟩
          rw [hsecret] at h
          cases h
      | text secret =>
          have hget : ((andThen (setStr (clientSecretKey name) (record.secret.encode.map utf8)
              s.store) (setStr (clientAclKey name) (cfg.dumps record.acl))).2.peek
                (clientSecretKey name)).1 = some (utf8 secret) := by
            have hsplit : andThen (setStr (clientSecretKey name) (record.secret.encode.map utf8)
                s.store) (setStr (clientAclKey name) (cfg.dumps record.acl)) =
                  setStr (clientAclKey name) (cfg.dumps record.acl)
                    (s.store.set (clientSecretKey name) (utf8 secret)) := by
              rw [hsecret]
              rfl
            rw [hsplit, peek_setStr (Slot.clientSecretKey_ne_clientAclKey name name),
              Store.peek_set_self]
          change truthy ((andThen _ _).2.get (clientSecretKey name)) = true ↔ _
          rw [show (andThen _ _).2.get (clientSecretKey name) = _ from hget, truthy_utf8]
          simp only [hsecret, Str.text.injEq]
  | adminAcl user acl =>
      cases hdumps : cfg.dumps acl with
      | ok raw => exact absurd ⟨raw, hdumps⟩ hstorable
      | error exn =>
          change truthy ((setStr _ (cfg.dumps acl) s.store).2.get _) = true ↔ False
          rw [hdumps]
          exact hnone hnew id
  | kv key record => exact absurd trivial hstorable
  | queue topic entries => exact has_refill (queueKey name) entries s.store
  | deviceToApp cid app =>
      cases app with
      | text app => exact absurd ⟨app, rfl⟩ hstorable
      | surrogates units => exact hnone hnew id
  | activityLog entries => exact has_refill activityLogKey entries s.store

-- An entry that failed is skipped the next time exactly when it left half of itself.
theorem fits_after_failure (hforce : cfg.forceOverwrite = false) (hbad : ¬ item.Fits cfg s.store) :
    item.Fits cfg (restoreItem cfg item s).2.store ↔ item.HalfWritten cfg := by
  rcases (item.task cfg).run_cases with hrefused | ⟨exn, hstopped⟩ | ⟨name, haccepts⟩
  · exact absurd (.inl hrefused) hbad
  · have hstore : (restoreItem cfg item s).2.store = s.store := by
      unfold restoreItem
      rw [Task.run_stopped hstopped]
    rw [hstore]
    refine iff_of_false hbad ?_
    rintro ⟨⟨name, hrefused, hname⟩, -⟩
    rcases hstopped with h | ⟨-, h⟩
    · rw [hrefused] at h
      cases h
    · rw [hname] at h
      cases h
  · have hskips : ¬ (item.task cfg).Skips cfg.forceOverwrite name s.store := fun h =>
      hbad (.inr ⟨name, haccepts, .inl h⟩)
    have hstorable : ¬ item.Storable cfg := fun h => hbad (.inr ⟨name, haccepts, .inr h⟩)
    have hnew : (item.task cfg).present name s.store = false :=
      Bool.eq_false_iff.mpr fun h => hskips ⟨h, hforce⟩
    rw [← present_after_failure haccepts hnew hstorable]
    have hstore : (restoreItem cfg item s).2.store =
        ((item.task cfg).write name ((item.task cfg).present name s.store) s.store).2 :=
      (Task.run_written haccepts hskips).2.1
    rw [hstore]
    constructor
    · rintro (hrefused | ⟨other, hother, hskipped | h⟩)
      · rw [haccepts.1] at hrefused
        cases hrefused
      · obtain rfl := Except.ok.inj (haccepts.2.symm.trans hother.2)
        exact hskipped.1
      · exact absurd h hstorable
    · exact fun h => .inr ⟨name, haccepts, .inl ⟨h, hforce⟩⟩

end Halves

section Later

variable {cfg : Restoring} {env : BackupEnvelope} {store : Store} {before after : List Item}
  {bad item : Item} {name : Text}

-- The sections of an envelope in their order.
def Item.rank : Item → Nat
  | .client _ _ => 0
  | .adminAcl _ _ => 1
  | .kv _ _ => 2
  | .queue _ _ => 3
  | .deviceToApp _ _ => 4
  | .activityLog _ => 5

def SortedTo (n : Nat) (items : List Item) : Prop :=
  items.Pairwise (fun a b => a.rank ≤ b.rank) ∧ ∀ item ∈ items, item.rank ≤ n

theorem sortedTo_nil : SortedTo 0 [] := ⟨List.Pairwise.nil, fun _ h => absurd h List.not_mem_nil⟩

theorem SortedTo.append {m n : Nat} {items part : List Item} (h : SortedTo m items) (hle : m ≤ n)
    (hpart : ∀ item ∈ part, item.rank = n) : SortedTo n (items ++ part) := by
  constructor
  · refine List.pairwise_append.mpr ⟨h.1, ?_, ?_⟩
    · refine List.pairwise_of_forall_mem_list fun a ha b hb => ?_
      rw [hpart a ha, hpart b hb]
    · intro a ha b hb
      rw [hpart b hb]
      exact (h.2 a ha).trans hle
  · intro item hitem
    rcases List.mem_append.mp hitem with hitem | hitem
    · exact (h.2 item hitem).trans hle
    · exact (hpart item hitem).le

theorem items_sorted (env : BackupEnvelope) : env.items.Pairwise fun a b => a.rank ≤ b.rank := by
  have hmap {α : Type} {f : α → Item} {n : Nat} (d : List α) (h : ∀ a, (f a).rank = n) :
      ∀ item ∈ d.map f, item.rank = n := by
    intro item hitem
    obtain ⟨a, -, rfl⟩ := List.mem_map.mp hitem
    exact h a
  have hlog : ∀ item ∈ (env.activityLog.map Item.activityLog).toList, item.rank = 5 := by
    intro item hitem
    cases hlog : env.activityLog with
    | none =>
        rw [hlog] at hitem
        cases hitem
    | some entries =>
        rw [hlog] at hitem
        obtain rfl := List.mem_singleton.mp hitem
        rfl
  have hsorted : SortedTo 5 ([] ++ env.items) := by
    unfold BackupEnvelope.items
    simp only [← List.append_assoc]
    have hclients := sortedTo_nil.append (Nat.le_refl 0)
      (hmap env.clients.entries fun entry => (rfl : (Item.client entry.1 entry.2).rank = 0))
    have hadmins := hclients.append (Nat.le_succ 0)
      (hmap env.adminAcls.entries fun entry => (rfl : (Item.adminAcl entry.1 entry.2).rank = 1))
    have hkv := hadmins.append (Nat.le_succ 1)
      (hmap env.kv.entries fun entry => (rfl : (Item.kv entry.1 entry.2).rank = 2))
    have hqueues := hkv.append (Nat.le_succ 2)
      (hmap env.queues.entries fun entry => (rfl : (Item.queue entry.1 entry.2).rank = 3))
    have hdevices := hqueues.append (Nat.le_succ 3) (hmap env.deviceToApp.entries
      fun entry => (rfl : (Item.deviceToApp entry.1 entry.2).rank = 4))
    exact hdevices.append (Nat.le_succ 4) hlog
  exact hsorted.1

-- A record that only a later entry is about is as it was.
theorem peek_later (hsplit : env.items = before ++ bad :: after)
    (hbad : ¬ bad.Fits cfg store) (hitem : item ∈ after)
    {slot : Slot} (hslot : slot ∈ item.slots) (hkv : ¬ slot.IsKv) :
    (applyEnvelope cfg env store).2.peek slot.key = store.peek slot.key := by
  by_contra hchanged
  obtain ⟨first, other, hreaches, hother⟩ := exists_reaches_of_changed hkv hchanged
  have hmem := mem_of_reaches hsplit hbad hreaches
  obtain ⟨mid, rest, rfl⟩ := List.append_of_mem hitem
  have hsplit' : env.items = (before ++ bad :: mid) ++ item :: rest := by
    rw [hsplit]
    simp
  have hin : other ∈ before ++ bad :: mid := by
    rcases List.mem_append.mp hmem with h | h
    · exact List.mem_append_left _ h
    · obtain rfl := List.mem_singleton.mp h
      exact List.mem_append_right _ List.mem_cons_self
  refine (label_ne_of_split hsplit').1 other hin ?_
  rw [label_of_mem_slots hother hkv, label_of_mem_slots hslot hkv]

theorem fits_later (hsplit : env.items = before ++ bad :: after)
    (hbad : ¬ bad.Fits cfg store) (hitem : item ∈ after) :
    item.Fits cfg (applyEnvelope cfg env store).2 ↔ item.Fits cfg store := by
  by_cases hkv : item.IsKv
  · exact fits_of_isKv hkv
  · exact Item.fits_congr fun slot hslot =>
      peek_later hsplit hbad hitem hslot (not_isKv_of_mem_slots hkv slot hslot)

theorem idle_later (hsplit : env.items = before ++ bad :: after)
    (hbad : ¬ bad.Fits cfg store) (hitem : item ∈ after) :
    item.Idle cfg (applyEnvelope cfg env store).2 ↔ item.Idle cfg store := by
  by_cases hkv : item.IsKv
  · exact iff_of_true (idle_of_isKv hkv) (idle_of_isKv hkv)
  · exact Item.idle_congr fun slot hslot =>
      peek_later hsplit hbad hitem hslot (not_isKv_of_mem_slots hkv slot hslot)

-- A value that comes after an entry that was half written: that one was a client, and so were
-- those before it.
theorem has_later (hsplit : env.items = before ++ bad :: after)
    (hbefore : ∀ b ∈ before, b.Fits cfg store) (hbad : ¬ bad.Fits cfg store)
    (hhalf : bad.HalfWritten cfg) (hitem : item ∈ after) (hbrings : item.Brings cfg name) :
    (applyEnvelope cfg env store).2.has (kvKey name) = store.has (kvKey name) := by
  have hsorted := items_sorted env
  rw [hsplit] at hsorted
  obtain ⟨-, hrest, hranks⟩ := List.pairwise_append.mp hsorted
  have hafter : bad.rank ≤ 2 := by
    obtain ⟨record, rfl, -⟩ := hbrings
    exact (List.pairwise_cons.mp hrest).1 _ hitem
  have hclient : bad.rank = 0 := by
    cases bad with
    | client cid record => rfl
    | adminAcl user acl => exact absurd hhalf.2 id
    | kv key record => exact absurd hhalf.2 id
    | queue topic entries =>
        change 3 ≤ 2 at hafter
        omega
    | deviceToApp cid app => exact absurd hhalf.2 id
    | activityLog entries =>
        change 5 ≤ 2 at hafter
        omega
  refine has_congr ?_
  rw [peek_kv_of_bad hsplit hbefore hbad]
  refine peek_batch cfg (fun b hb slot hslot hkey => ?_) (.start store)
  have hzero : b.rank ≤ 0 := hclient ▸ hranks b hb bad List.mem_cons_self
  have hkv : ¬ b.IsKv := by
    intro h
    cases b with
    | kv key record =>
        change 2 ≤ 0 at hzero
        omega
    | _ => exact h
  exact not_isKv_of_mem_slots hkv slot hslot ⟨name, Slot.key_injective hkey⟩

end Later

section Idempotence

variable {cfg : Restoring} {env : BackupEnvelope} {store : Store} {before after : List Item}
  {item : Item}

-- When a restore that does not overwrite anything can be run again.
structure Settles (cfg : Restoring) (env : BackupEnvelope) (store : Store) : Prop where
  flags : ∀ before later after, env.items = before ++ later :: after →
    (∀ b ∈ before, b.Fits cfg store) → ∀ base, later.Clears cfg base →
      Absent cfg store before.reverse base → ∀ b ∈ before, ¬ b.Brings cfg (flagOf base)
  halves : ∀ before bad after, env.items = before ++ bad :: after →
    (∀ b ∈ before, b.Fits cfg store) → ¬ bad.Fits cfg store → bad.HalfWritten cfg →
      ∀ first item rest, after = first ++ item :: rest → (∀ b ∈ first, b.Fits cfg store) →
        item.Idle cfg store ∧ ∀ name, item.Brings cfg name → store.has (kvKey name) = true

theorem fits_bad_again (hforce : cfg.forceOverwrite = false) {bad : Item}
    (hsplit : env.items = before ++ bad :: after) (hbefore : ∀ b ∈ before, b.Fits cfg store)
    (hbad : ¬ bad.Fits cfg store) :
    bad.Fits cfg (applyEnvelope cfg env store).2 ↔ bad.HalfWritten cfg := by
  have hreaches := reaches_iff_fits.mpr ⟨⟨after, hsplit⟩, hbefore⟩
  rw [apply_of_bad hsplit hbefore hbad]
  exact fits_after_failure hforce (mt (fits_of_reaches hreaches).mp hbad)

theorem fits_before_again (hsplit : env.items = before ++ after)
    (hbefore : ∀ b ∈ before, b.Fits cfg store) :
    ∀ b ∈ before, b.Fits cfg (applyEnvelope cfg env store).2 := by
  intro b hb
  obtain ⟨first, rest, rfl⟩ := List.append_of_mem hb
  have hreaches : Reaches (restoreItem cfg) env.items first b (.start store) := by
    refine reaches_iff_fits.mpr ⟨⟨rest ++ after, by rw [hsplit]; simp⟩, fun c hc => ?_⟩
    exact hbefore c (List.mem_append_left _ hc)
  exact fits_again hreaches (hbefore b hb)

-- Of two places in a list, the one up to which everything fits comes first.
theorem split_before_bad {items pre post : List Item} {bad : Item}
    (hsplit : items = before ++ item :: after) (hbefore : ∀ b ∈ before ++ [item], b.Fits cfg store)
    (hsplit' : items = pre ++ bad :: post) (hbad : ¬ bad.Fits cfg store) :
    ∃ mid, pre = before ++ item :: mid := by
  have hsame : (before ++ [item]) ++ after = pre ++ bad :: post := by
    rw [← hsplit', hsplit]
    simp
  rcases List.append_eq_append_iff.mp hsame with ⟨mid, rfl, -⟩ | ⟨mid, hmid, hrest⟩
  · exact ⟨mid, by simp⟩
  · cases mid with
    | nil => exact ⟨[], by rw [← List.append_nil pre, ← hmid]⟩
    | cons other mid =>
        obtain ⟨rfl, -⟩ := List.cons.inj hrest
        refine absurd (hbefore _ ?_) hbad
        rw [hmid]
        exact List.mem_append_right _ List.mem_cons_self

-- What came in is there at the end when nothing took it for a flag.
theorem has_again (hforce : cfg.forceOverwrite = false) (hsettles : Settles cfg env store)
    (hsplit : env.items = before ++ item :: after) (hbefore : ∀ b ∈ before, b.Fits cfg store)
    {name : Text} (hbrings : item.Brings cfg name) :
    (applyEnvelope cfg env store).2.has (kvKey name) = true := by
  have hfirst : ∀ b ∈ before ++ [item], b.Fits cfg store := by
    intro b hb
    rcases List.mem_append.mp hb with hb | hb
    · exact hbefore b hb
    · obtain rfl := List.mem_singleton.mp hb
      exact fits_of_brings hbrings
  have hthere {mid rest : List Item} (hitems : env.items = (before ++ item :: mid) ++ rest)
      (hfits : ∀ b ∈ before ++ item :: mid, b.Fits cfg store) :
      (batch (restoreItem cfg) (before ++ item :: mid) (.start store)).2.store.has (kvKey name) =
        true := by
    refine has_until hforce hbrings hitems hfits fun first later others hmid base hclears hflag => ?_
    subst hmid hflag
    intro habsent
    refine hsettles.flags (before ++ item :: first) later (others ++ rest) ?_ ?_ base hclears habsent
      item ?_ hbrings
    · rw [hitems]
      simp
    · intro b hb
      refine hfits b ?_
      rw [← List.cons_append, ← List.append_assoc]
      exact List.mem_append_left _ hb
    · exact List.mem_append_right _ List.mem_cons_self
  rcases @fits_or_bad cfg store env.items with hfits | ⟨pre, bad, post, hsplit', hpre, hbad⟩
  · have hitems : env.items = (before ++ item :: after) ++ [] := by
      rw [hsplit, List.append_nil]
    have hall := hthere hitems (hsplit ▸ hfits)
    rw [← hsplit] at hall
    exact hall
  · obtain ⟨mid, rfl⟩ := split_before_bad hsplit hfirst hsplit' hbad
    rw [has_congr (peek_kv_of_bad hsplit' hpre hbad name)]
    exact hthere hsplit' hpre

theorem unchanged_iff_settles (hforce : cfg.forceOverwrite = false) :
    Unchanged cfg env (applyEnvelope cfg env store).2 ↔ Settles cfg env store := by
  rw [unchanged_iff_reached hforce]
  constructor
  · intro h
    constructor
    · intro before later after hsplit hbefore base hclears habsent b hb hbrings
      have hlost := lost_of_clears hforce hsplit hbefore hclears habsent hb hbrings
      obtain ⟨first, rest, rfl⟩ := List.append_of_mem hb
      have hsplit' : env.items = first ++ b :: (rest ++ later :: after) := by
        rw [hsplit]
        simp
      have hfirst := fits_before_again hsplit' fun c hc => hbefore c (List.mem_append_left _ hc)
      rw [(h first b _ hsplit' hfirst).2 _ hbrings] at hlost
      cases hlost
    · rintro before bad after hsplit hbefore hbad hhalf first item rest rfl hfirst
      have hitem : item ∈ first ++ item :: rest := List.mem_append_right _ List.mem_cons_self
      have hsplit' : env.items = (before ++ bad :: first) ++ item :: rest := by
        rw [hsplit]
        simp
      have hagain : ∀ b ∈ before ++ bad :: first, b.Fits cfg (applyEnvelope cfg env store).2 := by
        intro b hb
        rcases List.mem_append.mp hb with hb | hb
        · exact fits_before_again hsplit hbefore b hb
        · rcases List.mem_cons.mp hb with rfl | hb
          · exact (fits_bad_again hforce hsplit hbefore hbad).mpr hhalf
          · exact (fits_later hsplit hbad (List.mem_append_left _ hb)).mpr (hfirst b hb)
      obtain ⟨hidle, hthere⟩ := h _ item rest hsplit' hagain
      refine ⟨(idle_later hsplit hbad hitem).mp hidle, fun name hbrings => ?_⟩
      rw [← has_later hsplit hbefore hbad hhalf hitem hbrings]
      exact hthere name hbrings
  · intro hsettles before item after hsplit hagain
    rcases @fits_or_bad cfg store before with hbefore | ⟨pre, bad, post, rfl, hpre, hbad⟩
    · refine ⟨?_, fun name hbrings => has_again hforce hsettles hsplit hbefore hbrings⟩
      by_cases hkv : item.IsKv
      · exact idle_of_isKv hkv
      · exact idle_again (reaches_iff_fits.mpr ⟨⟨after, hsplit⟩, hbefore⟩) hkv
    · have hsplit' : env.items = pre ++ bad :: (post ++ item :: after) := by
        rw [hsplit]
        simp
      have hitem : item ∈ post ++ item :: after := List.mem_append_right _ List.mem_cons_self
      have hhalf : bad.HalfWritten cfg :=
        (fits_bad_again hforce hsplit' hpre hbad).mp (hagain bad (by simp))
      have hpost : ∀ b ∈ post, b.Fits cfg store := fun b hb =>
        (fits_later hsplit' hbad (List.mem_append_left _ hb)).mp (hagain b (by simp [hb]))
      obtain ⟨hidle, hthere⟩ :=
        hsettles.halves pre bad _ hsplit' hpre hbad hhalf post item after rfl hpost
      refine ⟨(idle_later hsplit' hbad hitem).mpr hidle, fun name hbrings => ?_⟩
      rw [has_later hsplit' hpre hbad hhalf hitem hbrings]
      exact hthere name hbrings

theorem idempotent_iff (h : env.Ordered cfg) (store : Store) :
    Idempotent cfg env store ↔ cfg.forceOverwrite = false → Settles cfg env store := by
  rw [idempotent_iff_unchanged h]
  cases hforce : cfg.forceOverwrite with
  | true => exact iff_of_true (unchanged_forced hforce) fun h => by cases h
  | false =>
      rw [unchanged_iff_settles hforce]
      exact ⟨fun h _ => h, fun h => h rfl⟩

-- A value under a key that is the flag of the plain value after it.
def flagFirst : Value :=
  object [("stra2us_backup_version".toList, .int 1), ("dump_kind".toList, .str "whole".toList),
    ("data".toList, object [
      ("kv".toList, object [(flagOf ['k'], object [("value".toList, .str [])]),
        (['k'], object [("value".toList, .str [])])])])]

-- With overwriting, both end up the same way each time.
theorem flagFirst_forced : ∃ env, BackupEnvelope.fromJson (fun _ => .text []) flagFirst = .ok env ∧
    Idempotent .forced env .empty := by
  refine ⟨_, rfl, (idempotent_iff ⟨?_, ?_⟩ .empty).mpr fun h => by cases h⟩
  · intro entry hentry
    cases hentry
  · intro entries hentries
    cases hentries

-- The second run brings back what the first had taken away.
theorem flagFirst_not_idempotent : ¬ ∀ (cfg : Restoring) (env : BackupEnvelope) (store : Store),
    (∃ strOf doc, BackupEnvelope.fromJson strOf doc = .ok env) → env.Ordered cfg →
      Idempotent cfg env store := by
  intro h
  have hagain := h .careful _ .empty ⟨fun _ => .text [], flagFirst, rfl⟩ ⟨?_, ?_⟩ 0
    (kvKey (flagOf ['k']))
  · have hvalue := congrArg Prod.fst hagain
    cases hvalue
  · intro entry hentry
    cases hentry
  · intro entries hentries
    cases hentries

end Idempotence

end Stra2us.Backup
