import Stra2us.Backup.Effects

namespace Stra2us.Backup

open Foundation Server

section Puts

-- What is put at a key: a value over what is there, or nothing at all.
def put (old : Option Bytes × Option Stream) (value : Option Bytes) :
    Option Bytes × Option Stream :=
  match value with
  | some bytes => (some bytes, old.2)
  | none => (none, none)

-- The last put decides on the value, and any that clears the key on a stream.
theorem foldl_put_eq (old : Option Bytes × Option Stream) (values : List (Option Bytes)) :
    values.foldl put old =
      (values.getLast?.getD old.1, if none ∈ values then none else old.2) := by
  induction values using List.reverseRecOn with
  | nil => simp
  | append_singleton values value ih =>
      rw [List.foldl_append, ih, List.getLast?_concat, Option.getD_some]
      cases value with
      | some bytes => simp [put]
      | none => simp [put]

theorem foldl_put_same_iff (old : Option Bytes × Option Stream) (values : List (Option Bytes)) :
    values.foldl put old = old ↔ ∀ last, values.getLast? = some last →
      old.1 = last ∧ (none ∈ values → old.2 = none) := by
  rw [foldl_put_eq]
  cases hlast : values.getLast? with
  | none =>
      obtain rfl := List.getLast?_eq_none_iff.mp hlast
      simp
  | some last =>
      rw [Prod.ext_iff]
      simp only [Option.getD_some, Option.some.injEq, forall_eq']
      refine and_congr eq_comm ?_
      by_cases hclear : none ∈ values
      · simp [hclear, eq_comm]
      · simp [hclear]

variable (cfg : Restoring)

-- A value is put at its own key, and its flag at the flag's.
def recordPuts (name : Text) (record : KvRecord) (key : Text) : List (Option Bytes) :=
  if name = key then [some record.value]
  else if flagOf name = key then [if record.encrypted then some (utf8 "1".toList) else none]
  else []

-- Unless the entry is turned away.
def Item.puts (key : Text) : Item → List (Option Bytes)
  | .kv (.text name) record =>
      match (restoreKv cfg (.text name) record).refused with
      | .ok false => recordPuts name record key
      | _ => []
  | _ => []

theorem flagOf_ne (key : Text) : flagOf key ≠ key := by
  intro h
  have hlen := congrArg List.length h
  have hsuffix : ":enc".toList.length = 4 := by decide
  unfold flagOf at hlen
  rw [List.length_append] at hlen
  omega

theorem kvKey_flagOf (key : Text) : kvKey (flagOf key) = encKey key :=
  Slot.key_flag key

theorem kvKey_inj {a b : Text} : kvKey a = kvKey b ↔ a = b := by
  constructor
  · intro h
    have hslot : Slot.kv a = .kv b := Slot.key_injective h
    exact Slot.kv.inj hslot
  · rintro rfl
    rfl

theorem peek_setRecord_eq (name key : Text) (record : KvRecord) (s : Store) :
    (setRecord name record s).peek (kvKey key) =
      (recordPuts name record key).foldl put (s.peek (kvKey key)) := by
  unfold recordPuts
  by_cases hname : name = key
  · subst hname
    have hne : kvKey name ≠ encKey name := by
      rw [← kvKey_flagOf, Ne, kvKey_inj]
      exact (flagOf_ne name).symm
    rw [if_pos rfl]
    unfold setRecord
    dsimp only
    split_ifs
    · rw [Store.peek_set_of_ne _ hne, Store.peek_set_self]
      rfl
    · rw [Store.peek_delete_of_not_mem _ (by simpa using hne), Store.peek_set_self]
      rfl
  · have hne : kvKey key ≠ kvKey name := by
      rw [Ne, kvKey_inj]
      exact fun h => hname h.symm
    rw [if_neg hname]
    by_cases hflag : flagOf name = key
    · subst hflag
      rw [if_pos rfl]
      unfold setRecord
      dsimp only
      rw [kvKey_flagOf] at hne ⊢
      split_ifs
      · rw [Store.peek_set_self]
        simp [put, Store.peek]
      · rw [Store.peek_delete_self]
        rfl
    · rw [if_neg hflag]
      refine peek_setRecord hne ?_ record s
      rw [← kvKey_flagOf, Ne, kvKey_inj]
      exact fun h => hflag h.symm

variable {cfg} {item : Item}

theorem puts_of_not_accepts {name : Str} {record : KvRecord} (key : Text)
    (h : ∀ text, ¬ (restoreKv cfg name record).Accepts text) :
    (Item.kv name record).puts cfg key = [] := by
  cases name with
  | surrogates units => rfl
  | text name =>
      have hrefused : (restoreKv cfg (.text name) record).refused ≠ .ok false :=
        fun hrefused => h name ⟨hrefused, rfl⟩
      cases hcheck : (restoreKv cfg (.text name) record).refused with
      | error exn => simp [Item.puts, hcheck]
      | ok refused =>
          cases refused with
          | true => simp [Item.puts, hcheck]
          | false => exact absurd hcheck hrefused

theorem puts_of_not_isKv (hkv : ¬ item.IsKv) (key : Text) : item.puts cfg key = [] := by
  cases item with
  | kv name record => exact absurd trivial hkv
  | _ => rfl

theorem peek_kv_of_not_isKv (hkv : ¬ item.IsKv) (key : Text) (s : State) :
    (restoreItem cfg item s).2.store.peek (kvKey key) = s.store.peek (kvKey key) := by
  refine peek_restoreItem cfg item ?_ s
  intro slot hslot hkey
  have hslot' : slot = .kv key := Slot.key_injective hkey
  exact not_isKv_of_mem_slots hkv slot hslot ⟨key, hslot'⟩

theorem restoreItem_idle {s : State} (h : ∀ name, (item.task cfg).Accepts name →
    (item.task cfg).Skips cfg.forceOverwrite name s.store) :
    (restoreItem cfg item s).2.store = s.store := by
  unfold restoreItem
  rcases (item.task cfg).run_cases with hrefused | ⟨exn, hstopped⟩ | ⟨name, haccepts⟩
  · rw [Task.run_rejected hrefused]
  · rw [Task.run_stopped hstopped]
  · rw [Task.run_skipped haccepts (h name haccepts)]

-- A forced restore puts, at a value's key, what its entries put.
theorem peek_kv_of_forced (hforce : cfg.forceOverwrite = true) (key : Text) (item : Item)
    (s : State) : (restoreItem cfg item s).2.store.peek (kvKey key) =
      (item.puts cfg key).foldl put (s.store.peek (kvKey key)) := by
  by_cases hkv : item.IsKv
  · cases item with
    | kv name record =>
        by_cases haccepts : ∃ text, (restoreKv cfg name record).Accepts text
        · obtain ⟨text, haccepts⟩ := haccepts
          obtain rfl := Str.encode_ok.mp haccepts.2
          have hskips : ¬ (restoreKv cfg (.text text) record).Skips cfg.forceOverwrite text s.store := by
            rintro ⟨-, hnot⟩
            rw [hforce] at hnot
            cases hnot
          have hwritten := (Task.run_written haccepts hskips).2.1
          have hputs : (Item.kv (.text text) record).puts cfg key = recordPuts text record key := by
            simp [Item.puts, haccepts.1]
          change ((restoreKv cfg (.text text) record).run cfg.forceOverwrite s).2.store.peek _ = _
          rw [hwritten, hputs]
          exact peek_setRecord_eq text key record s.store
        · have hnone : ∀ text, ¬ (restoreKv cfg name record).Accepts text :=
            fun text h => haccepts ⟨text, h⟩
          have hsame : (restoreItem cfg (.kv name record) s).2.store = s.store :=
            restoreItem_idle fun text h => absurd h (hnone text)
          rw [hsame, puts_of_not_accepts key hnone]
          rfl
    | _ => exact absurd hkv id
  · rw [puts_of_not_isKv hkv, peek_kv_of_not_isKv hkv]
    rfl

theorem peek_kv_batch (hforce : cfg.forceOverwrite = true) (key : Text) {items : List Item}
    {s : State} (hok : (batch (restoreItem cfg) items s).1 = .ok ()) :
    (batch (restoreItem cfg) items s).2.store.peek (kvKey key) =
      (items.flatMap (Item.puts cfg key)).foldl put (s.store.peek (kvKey key)) := by
  induction items generalizing s with
  | nil => rfl
  | cons item rest ih =>
      cases hstep : (restoreItem cfg item s).1 with
      | error exn =>
          rw [batch_cons_error hstep] at hok
          cases hok
      | ok value =>
          rw [batch_cons_ok hstep] at hok ⊢
          rw [ih hok, peek_kv_of_forced hforce, List.flatMap_cons, List.foldl_append]

end Puts

section Descent

variable {cfg : Restoring} {items : List Item} {store : Store}

-- The key of a value that is let through.
def Item.Brings (cfg : Restoring) (item : Item) (name : Text) : Prop :=
  ∃ record, item = .kv (.text name) record ∧ (restoreKv cfg (.text name) record).Accepts name

theorem has_iff_peek (s : Store) (key : Text) :
    s.has key = true ↔ (s.peek key).1.isSome ∨ (s.peek key).2.isSome := by
  simp [Store.has, Store.peek]

theorem restoreItem_of_not_brings {item : Item} (h : ∀ name, ¬ item.Brings cfg name) (key : Text)
    (s : State) : (restoreItem cfg item s).2.store.peek (kvKey key) = s.store.peek (kvKey key) := by
  by_cases hkv : item.IsKv
  · cases item with
    | kv name record =>
        have hsame : (restoreItem cfg (.kv name record) s).2.store = s.store := by
          refine restoreItem_idle fun text haccepts => ?_
          obtain rfl := Str.encode_ok.mp haccepts.2
          exact absurd ⟨record, rfl, haccepts⟩ (h text)
        rw [hsame]
    | _ => exact absurd hkv id
  · exact peek_kv_of_not_isKv hkv key s

theorem restoreItem_of_present {item : Item} {s : State} {name : Text}
    (hforce : cfg.forceOverwrite = false) (hbrings : item.Brings cfg name)
    (hpresent : s.store.has (kvKey name) = true) : (restoreItem cfg item s).2.store = s.store := by
  obtain ⟨record, rfl, haccepts⟩ := hbrings
  refine restoreItem_idle fun other hother => ⟨?_, hforce⟩
  obtain rfl := Except.ok.inj (haccepts.2.symm.trans hother.2)
  exact hpresent

-- A value goes only where one comes in whose flag it is.
theorem has_restoreItem {item : Item} {s : State} {key : Text}
    (hforce : cfg.forceOverwrite = false) (hhas : s.store.has (kvKey key) = true)
    (hflag : ∀ name, item.Brings cfg name → flagOf name = key → s.store.has (kvKey name) = true) :
    (restoreItem cfg item s).2.store.has (kvKey key) = true := by
  by_cases hbrings : ∃ name, item.Brings cfg name
  · obtain ⟨name, hbrings⟩ := hbrings
    by_cases hpresent : s.store.has (kvKey name) = true
    · rwa [restoreItem_of_present hforce hbrings hpresent]
    · have hother : ¬ flagOf name = key := fun h => hpresent (hflag name hbrings h)
      obtain ⟨record, rfl, haccepts⟩ := hbrings
      have hskips : ¬ (restoreKv cfg (.text name) record).Skips cfg.forceOverwrite name s.store :=
        fun h => hpresent h.1
      have hwritten := (Task.run_written haccepts hskips).2.1
      change ((restoreKv cfg (.text name) record).run cfg.forceOverwrite s).2.store.has _ = true
      rw [hwritten, has_iff_peek]
      change ((setRecord name record s.store).peek (kvKey key)).1.isSome ∨
        ((setRecord name record s.store).peek (kvKey key)).2.isSome
      rw [peek_setRecord_eq, recordPuts, if_neg hother]
      split_ifs
      · exact .inl rfl
      · exact (has_iff_peek _ _).mp hhas
  · have hnot : ∀ name, ¬ item.Brings cfg name := fun name h => hbrings ⟨name, h⟩
    rw [has_iff_peek, restoreItem_of_not_brings hnot]
    exact (has_iff_peek _ _).mp hhas

theorem has_of_brings {item : Item} {s : State} {name : Text} (hforce : cfg.forceOverwrite = false)
    (hbrings : item.Brings cfg name) : (restoreItem cfg item s).2.store.has (kvKey name) = true := by
  by_cases hpresent : s.store.has (kvKey name) = true
  · refine has_restoreItem hforce hpresent ?_
    rintro other ⟨record, rfl, -⟩ hflag
    obtain ⟨record', heq, -⟩ := hbrings
    obtain ⟨hname, -⟩ := Item.kv.inj heq
    obtain rfl := Str.text.inj hname
    exact absurd hflag (flagOf_ne _)
  · obtain ⟨record, rfl, haccepts⟩ := hbrings
    have hskips : ¬ (restoreKv cfg (.text name) record).Skips cfg.forceOverwrite name s.store :=
      fun h => hpresent h.1
    have hwritten := (Task.run_written haccepts hskips).2.1
    change ((restoreKv cfg (.text name) record).run cfg.forceOverwrite s).2.store.has _ = true
    rw [hwritten, has_iff_peek]
    change ((setRecord name record s.store).peek (kvKey name)).1.isSome ∨ _
    rw [peek_setRecord_eq, recordPuts, if_pos rfl]
    exact .inl rfl

-- Of the values that come in where none was, the one with the shortest key is there for good:
-- whatever could take it for a flag has a shorter key, was there, and is still there.
theorem exists_new_of_brings (hforce : cfg.forceOverwrite = false) {name : Text} {item : Item}
    (hitem : item ∈ items) (hbrings : item.Brings cfg name) (hnew : store.has (kvKey name) = false)
    (hok : (batch (restoreItem cfg) items (.start store)).1 = .ok ()) :
    ∃ key, store.has (kvKey key) = false ∧
      (batch (restoreItem cfg) items (.start store)).2.store.has (kvKey key) = true := by
  induction hlen : name.length using Nat.strong_induction_on generalizing name item with
  | _ n ih =>
      by_cases hshorter : ∃ other ∈ items, ∃ key, other.Brings cfg key ∧ key.length < n ∧
          store.has (kvKey key) = false
      · obtain ⟨other, hother, key, hbrings', hlt, hnew'⟩ := hshorter
        exact ih key.length hlt hother hbrings' hnew' rfl
      · have hold : ∀ other ∈ items, ∀ key, other.Brings cfg key → key.length < n →
            store.has (kvKey key) = true := by
          intro other hother key hbrings' hlt
          by_contra hnot
          exact hshorter ⟨other, hother, key, hbrings', hlt, by simpa using hnot⟩
        have hflagLen (key : Text) : key.length < (flagOf key).length := by
          have hsuffix : ":enc".toList.length = 4 := by decide
          unfold flagOf
          rw [List.length_append]
          omega
        let kept (s : State) : Prop := ∀ key, key.length < n → store.has (kvKey key) = true →
          s.store.has (kvKey key) = true
        have hkept : ∀ other ∈ items, ∀ s, kept s → kept (restoreItem cfg other s).2 := by
          intro other hother s hs key hlt hhas
          refine has_restoreItem hforce (hs key hlt hhas) ?_
          rintro base hbase rfl
          have hbaseLt : base.length < n := (hflagLen base).trans hlt
          exact hs base hbaseLt (hold other hother base hbase hbaseLt)
        let there (s : State) : Prop := kept s ∧ s.store.has (kvKey name) = true
        have hthere : ∀ other ∈ items, ∀ s, there s → there (restoreItem cfg other s).2 := by
          rintro other hother s ⟨hs, hhas⟩
          refine ⟨hkept other hother s hs, has_restoreItem hforce hhas ?_⟩
          intro base hbase hflag
          have hbaseLt : base.length < n := by
            have hlt := hflagLen base
            rw [hflag] at hlt
            omega
          exact hs base hbaseLt (hold other hother base hbase hbaseLt)
        obtain ⟨before, after, rfl⟩ := List.append_of_mem hitem
        refine ⟨name, hnew, ?_⟩
        have hstart : kept (.start store) := fun key _ hhas => hhas
        have hbefore : kept (batch (restoreItem cfg) before (.start store)).2 :=
          batch_invariant (fun other hother => hkept other (by simp [hother])) hstart
        cases hrun : (batch (restoreItem cfg) before (.start store)).1 with
        | error exn =>
            rw [batch_append_error hrun, hrun] at hok
            cases hok
        | ok value =>
            rw [batch_append_ok hrun] at hok ⊢
            cases hstep : (restoreItem cfg item (batch (restoreItem cfg) before (.start store)).2).1 with
            | error exn =>
                rw [batch_cons_error hstep] at hok
                cases hok
            | ok value =>
                rw [batch_cons_ok hstep]
                have hitemThere : there (restoreItem cfg item
                    (batch (restoreItem cfg) before (.start store)).2).2 :=
                  ⟨hkept item (by simp) _ hbefore, has_of_brings hforce hbrings⟩
                exact (batch_invariant (fun other hother => hthere other (by simp [hother]))
                  hitemThere).2

end Descent

section Untouched

variable {cfg : Restoring} {env : BackupEnvelope} {store : Store} {before after : List Item}
  {bad : Item}

-- The values and flags come out as they were: where the restore may overwrite, the last of
-- what is put at a key is what was there; where it may not, no value is new.
def KvUntouched (cfg : Restoring) (store : Store) (items : List Item) : Prop :=
  (cfg.forceOverwrite = true → ∀ key last, (items.flatMap (Item.puts cfg key)).getLast? = some last →
    store.get (kvKey key) = last ∧
      (none ∈ items.flatMap (Item.puts cfg key) → store.stream? (kvKey key) = none)) ∧
  (cfg.forceOverwrite = false → ∀ item ∈ items, ∀ name, item.Brings cfg name →
    store.has (kvKey name) = true)

theorem kvUntouched_iff (hok : (batch (restoreItem cfg) before (.start store)).1 = .ok ()) :
    (∀ key, (batch (restoreItem cfg) before (.start store)).2.store.peek (kvKey key) =
      store.peek (kvKey key)) ↔ KvUntouched cfg store before := by
  unfold KvUntouched
  cases hforce : cfg.forceOverwrite with
  | true =>
      simp only [forall_const, reduceCtorEq, false_implies, and_true, peek_kv_batch hforce _ hok]
      exact forall_congr' fun key => foldl_put_same_iff _ _
  | false =>
      simp only [reduceCtorEq, false_implies, forall_const, true_and]
      constructor
      · intro h item hitem name hbrings
        by_contra hnot
        obtain ⟨key, hnew, hthere⟩ :=
          exists_new_of_brings hforce hitem hbrings (by simpa using hnot) hok
        rw [has_iff_peek, h key, ← has_iff_peek, hnew] at hthere
        cases hthere
      · intro h
        let same (s : State) : Prop := ∀ key, s.store.peek (kvKey key) = store.peek (kvKey key)
        have hsame : ∀ item ∈ before, ∀ s, same s → same (restoreItem cfg item s).2 := by
          intro item hitem s hs key
          by_cases hbrings : ∃ name, item.Brings cfg name
          · obtain ⟨name, hbrings⟩ := hbrings
            have hpresent : s.store.has (kvKey name) = true := by
              rw [has_iff_peek, hs name, ← has_iff_peek]
              exact h item hitem name hbrings
            rw [restoreItem_of_present hforce hbrings hpresent]
            exact hs key
          · rw [restoreItem_of_not_brings fun name hname => hbrings ⟨name, hname⟩]
            exact hs key
        have hstart : same (.start store) := fun key => rfl
        exact batch_invariant hsame hstart

-- The run ends at the first entry that does not fit.
theorem apply_of_bad (hsplit : env.items = before ++ bad :: after)
    (hbefore : ∀ b ∈ before, b.Fits cfg store) (hbad : ¬ bad.Fits cfg store) :
    (applyEnvelope cfg env store).2 =
      (restoreItem cfg bad (batch (restoreItem cfg) before (.start store)).2).2.store := by
  have hreaches := reaches_iff_fits.mpr ⟨⟨after, hsplit⟩, hbefore⟩
  change (batch (restoreItem cfg) env.items (.start store)).2.store = _
  rw [hsplit, batch_append_ok hreaches.2]
  cases hstep : (restoreItem cfg bad (batch (restoreItem cfg) before (.start store)).2).1 with
  | ok value => exact absurd ((fits_of_reaches hreaches).mp (restoreItem_ok_iff.mp hstep)) hbad
  | error exn => rw [batch_cons_error hstep]

theorem peek_kv_of_bad (hsplit : env.items = before ++ bad :: after)
    (hbefore : ∀ b ∈ before, b.Fits cfg store) (hbad : ¬ bad.Fits cfg store) (key : Text) :
    (applyEnvelope cfg env store).2.peek (kvKey key) =
      (batch (restoreItem cfg) before (.start store)).2.store.peek (kvKey key) := by
  rw [apply_of_bad hsplit hbefore hbad]
  apply restoreItem_of_not_brings
  rintro name ⟨record, rfl, haccepts⟩
  exact hbad (.inr ⟨name, haccepts, .inr trivial⟩)

theorem idle_of_isKv {item : Item} (hkv : item.IsKv) : item.Idle cfg store := by
  intro name haccepts hskips p hp
  exact absurd hkv (not_isKv_of_leaves hp)

-- The entries reached are those up to the first that does not fit.
theorem mem_of_reaches {first : List Item} {item : Item} (hsplit : env.items = before ++ bad :: after)
    (hbad : ¬ bad.Fits cfg store)
    (hreaches : Reaches (restoreItem cfg) env.items first item (.start store)) :
    item ∈ before ++ [bad] := by
  obtain ⟨⟨rest, hrest⟩, hfirst⟩ := reaches_iff_fits.mp hreaches
  rw [hsplit] at hrest
  rcases List.append_eq_append_iff.mp hrest with ⟨between, rfl, hbetween⟩ | ⟨between, rfl, hbetween⟩
  · cases between with
    | nil =>
        obtain ⟨rfl, -⟩ := List.cons.inj hbetween
        simp
    | cons other between =>
        obtain ⟨rfl, -⟩ := List.cons.inj hbetween
        exact absurd (hfirst _ (by simp)) hbad
  · cases between with
    | nil =>
        obtain ⟨rfl, -⟩ := List.cons.inj hbetween
        simp
    | cons other between =>
        obtain ⟨rfl, -⟩ := List.cons.inj hbetween
        simp

def Unchanged (cfg : Restoring) (env : BackupEnvelope) (store : Store) : Prop :=
  ∀ key, (applyEnvelope cfg env store).2.peek key = store.peek key

theorem unchanged_iff (hsplit : env.items = before ++ bad :: after)
    (hbefore : ∀ b ∈ before, b.Fits cfg store) (hbad : ¬ bad.Fits cfg store) :
    Unchanged cfg env store ↔
      (∀ item ∈ before ++ [bad], item.Idle cfg store) ∧ KvUntouched cfg store before := by
  have hreached : ∀ item ∈ before ++ [bad], ∃ first,
      Reaches (restoreItem cfg) env.items first item (.start store) := by
    intro item hitem
    rcases List.mem_append.mp hitem with hmem | hmem
    · obtain ⟨first, rest, rfl⟩ := List.append_of_mem hmem
      refine ⟨first, reaches_iff_fits.mpr ⟨⟨rest ++ bad :: after, by rw [hsplit]; simp⟩, ?_⟩⟩
      intro b hb
      exact hbefore b (by simp [hb])
    · obtain rfl := List.mem_singleton.mp hmem
      exact ⟨before, reaches_iff_fits.mpr ⟨⟨after, hsplit⟩, hbefore⟩⟩
  have hrun := reaches_iff_fits.mpr ⟨⟨after, hsplit⟩, hbefore⟩
  rw [← kvUntouched_iff hrun.2]
  simp only [← peek_kv_of_bad hsplit hbefore hbad]
  constructor
  · intro h
    refine ⟨?_, fun key => h (kvKey key)⟩
    intro item hitem
    obtain ⟨first, hreaches⟩ := hreached item hitem
    by_cases hkv : item.IsKv
    · exact idle_of_isKv hkv
    · exact (idle_of_reaches hreaches hkv).mp fun slot _ => h slot.key
  · rintro ⟨hidle, hvalues⟩ key
    by_cases hslot : ∃ slot : Slot, slot.key = key
    · obtain ⟨slot, rfl⟩ := hslot
      by_cases hkv : slot.IsKv
      · obtain ⟨name, rfl⟩ := hkv
        exact hvalues name
      · by_contra hchanged
        obtain ⟨first, item, hreaches, hslot⟩ := exists_reaches_of_changed hkv hchanged
        have hitemKv : ¬ item.IsKv := not_isKv_of_mem_slot hslot hkv
        exact hchanged ((idle_of_reaches hreaches hitemKv).mpr
          (hidle item (mem_of_reaches hsplit hbad hreaches)) slot hslot)
    · refine peek_batch cfg ?_ (.start store)
      intro item hmem other hother hkey
      exact hslot ⟨other, hkey⟩

def AllOrNothing (cfg : Restoring) (env : BackupEnvelope) (store : Store) : Prop :=
  (∃ result, (applyEnvelope cfg env store).1 = .ok result) ∨ Unchanged cfg env store

-- Put together: a restore is all or nothing when every entry fits, or when the entries up to
-- the first that does not, this one too, leave everything as it was.
theorem allOrNothing_iff (cfg : Restoring) (env : BackupEnvelope) (store : Store) :
    AllOrNothing cfg env store ↔ ∀ before bad after, env.items = before ++ bad :: after →
      (∀ b ∈ before, b.Fits cfg store) → ¬ bad.Fits cfg store →
        (∀ item ∈ before ++ [bad], item.Idle cfg store) ∧ KvUntouched cfg store before := by
  constructor
  · rintro (hdone | hsame) before bad after hsplit hbefore hbad
    · have hfits := completes_iff_fits.mp hdone
      exact absurd (hfits bad (by rw [hsplit]; simp)) hbad
    · exact (unchanged_iff hsplit hbefore hbad).mp hsame
  · intro h
    cases hrun : (batch (restoreItem cfg) env.items (.start store)).1 with
    | ok value =>
        refine .inl (completes_iff_fits.mpr ?_)
        exact (batch_ok_iff_fits (List.append_nil _).symm).mp hrun
    | error exn =>
        obtain ⟨before, bad, hreaches, hstep, -⟩ := exists_reaches_of_error hrun
        obtain ⟨⟨after, hsplit⟩, hbefore⟩ := reaches_iff_fits.mp hreaches
        have hbad : ¬ bad.Fits cfg store := by
          intro hfits
          have hok := restoreItem_ok_iff.mpr ((fits_of_reaches hreaches).mpr hfits)
          rw [hstep] at hok
          cases hok
        exact .inr ((unchanged_iff hsplit hbefore hbad).mpr (h before bad after hsplit hbefore hbad))

-- A value, and a queue with an entry that has no fields.
def brokenQueue : Value :=
  object [("stra2us_backup_version".toList, .int 1), ("dump_kind".toList, .str "whole".toList),
    ("data".toList, object [
      ("kv".toList, object [(['a'], object [("value".toList, .str [])])]),
      ("queues".toList, object [(['a'], .list [object [("id".toList, .str "1-1".toList),
        ("fields".toList, .dict [])]])])])]

-- The value is written before the queue fails.
theorem brokenQueue_half_done :
    ∃ env, BackupEnvelope.fromJson (fun _ => .text []) brokenQueue = .ok env ∧
      ¬ AllOrNothing .forced env .empty := by
  refine ⟨_, rfl, ?_⟩
  rintro (⟨result, hdone⟩ | hsame)
  · cases hdone
  · have hvalue := congrArg Prod.fst (hsame (kvKey ['a']))
    cases hvalue

end Untouched

end Stra2us.Backup
