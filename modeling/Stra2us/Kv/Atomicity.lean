import Stra2us.Kv.Pair

namespace Stra2us.Kv

open Foundation Server

-- What a request knows of the two records in each phase.
def Phase.Knows (settled : Pair → Prop) (pair : Pair) : Phase → Prop
  | .wrote _ value => ∃ prior, settled prior ∧ pair = ⟨some value, prior.flag⟩
  | .kept _ value => ∃ prior, settled prior ∧ truthy prior.flag ∧ pair = ⟨some value, prior.flag⟩
  | .missing => ∃ flag, settled ⟨none, flag⟩
  | .read value => pair.value = some value
  | .seen value flag => settled ⟨some value, flag⟩
  | _ => True

-- A request halfway through its write is the only one that is halfway through anything,
-- and where nobody writes the pair is a settled one.
structure Consistent (settled : Pair → Prop) (phases : Nat → Option Phase) (pair : Pair) :
    Prop where
  atRest : (∀ i phase, phases i = some phase → phase.halfWritten = false) → settled pair
  alone : ∀ i phase, phases i = some phase → phase.halfWritten = true →
    ∀ j other, j ≠ i → phases j = some other → other.closed
  knows : ∀ i phase, phases i = some phase → phase.Knows settled pair

namespace Consistent

variable {settled more : Pair → Prop} {phases : Nat → Option Phase} {pair : Pair}

theorem mono (h : Consistent settled phases pair) (hmore : ∀ p, settled p → more p) :
    Consistent more phases pair := by
  refine ⟨fun hrest => hmore _ (h.atRest hrest), h.alone, ?_⟩
  intro i phase hi
  have hknows := h.knows i phase hi
  cases phase with
  | wrote catalog value =>
      obtain ⟨prior, hp, heq⟩ := hknows
      exact ⟨prior, hmore _ hp, heq⟩
  | kept catalog value =>
      obtain ⟨prior, hp, ht, heq⟩ := hknows
      exact ⟨prior, hmore _ hp, ht, heq⟩
  | missing =>
      obtain ⟨flag, hp⟩ := hknows
      exact ⟨flag, hmore _ hp⟩
  | seen value flag => exact hmore _ hknows
  | _ => exact hknows

-- What a closed phase knows does not depend on the pair.
theorem knows_of_closed {phase : Phase} (h : phase.closed) {pair' : Pair}
    (hknows : phase.Knows settled pair) : phase.Knows settled pair' := by
  cases phase with
  | wrote catalog value => exact absurd h.1 (by simp [Phase.halfWritten])
  | kept catalog value => exact absurd h.1 (by simp [Phase.halfWritten])
  | read value => exact absurd h.2 (by simp [Phase.halfRead])
  | _ => exact hknows

-- The pair stays, and nobody starts or ends a write.
theorem look (h : Consistent settled phases pair) (i : Nat) {new : Phase}
    (hold : ∀ old, phases i = some old → old.halfWritten = false) (hnew : new.halfWritten = false)
    (hread : new.halfRead = true → (∃ old, phases i = some old ∧ old.halfRead = true) ∨
      ∀ j other, j ≠ i → phases j = some other → other.halfWritten = false)
    (hknows : new.Knows settled pair) :
    Consistent settled (Function.update phases i (some new)) pair := by
  refine ⟨?_, ?_, ?_⟩
  · intro hrest
    apply h.atRest
    intro j phase hj
    by_cases hji : j = i
    · subst hji
      exact hold phase hj
    · exact hrest j phase (by rw [Function.update_of_ne hji]; exact hj)
  · intro j phase hj hhalf k other hk hother
    have hji : j ≠ i := by
      rintro rfl
      rw [Function.update_self] at hj
      obtain rfl := Option.some.inj hj
      rw [hnew] at hhalf
      cases hhalf
    rw [Function.update_of_ne hji] at hj
    by_cases hki : k = i
    · subst hki
      rw [Function.update_self] at hother
      obtain rfl := Option.some.inj hother
      refine ⟨hnew, ?_⟩
      by_contra hr
      rcases hread (by simpa using hr) with ⟨old, hold', hoch⟩ | hnone
      · have hclosed := h.alone j phase hj hhalf k old hk hold'
        rw [hclosed.2] at hoch
        cases hoch
      · rw [hnone j phase hji hj] at hhalf
        cases hhalf
    · rw [Function.update_of_ne hki] at hother
      exact h.alone j phase hj hhalf k other hk hother
  · intro j phase hj
    by_cases hji : j = i
    · subst hji
      rw [Function.update_self] at hj
      obtain rfl := Option.some.inj hj
      exact hknows
    · rw [Function.update_of_ne hji] at hj
      exact h.knows j phase hj

-- With everybody else done or not begun, a request may change the pair.
theorem change (h : Consistent settled phases pair) (i : Nat) {new : Phase} {pair' : Pair}
    (hothers : ∀ j other, j ≠ i → phases j = some other → other.closed)
    (hknows : new.Knows settled pair') (hrest : new.halfWritten = false → settled pair') :
    Consistent settled (Function.update phases i (some new)) pair' := by
  refine ⟨?_, ?_, ?_⟩
  · intro hall
    exact hrest (hall i new (Function.update_self i _ _))
  · intro j phase hj hhalf k other hk hother
    have hji : j = i := by
      by_contra hne
      rw [Function.update_of_ne hne] at hj
      rw [(hothers j phase hne hj).1] at hhalf
      cases hhalf
    subst hji
    rw [Function.update_of_ne hk] at hother
    exact hothers k other hk hother
  · intro j phase hj
    by_cases hji : j = i
    · subst hji
      rw [Function.update_self] at hj
      obtain rfl := Option.some.inj hj
      exact hknows
    · rw [Function.update_of_ne hji] at hj
      exact knows_of_closed (hothers j phase hji hj) (h.knows j phase hj)

end Consistent

section Store

variable {key : Text}

-- A command that does not change the records leaves the pair, the nonce script too,
-- whose key is of another family.
theorem pairOf_exec {cmd : Cmd} (w : World) (h : ¬ Changes key cmd) (hnonce : cmd.namesNonce) :
    pairOf key (exec cmd w).2.store = pairOf key w.store := by
  cases cmd with
  | set k value =>
      have hvalue : kvKey key ≠ k := fun hk => h (Or.inl hk.symm)
      have hflag : encKey key ≠ k := fun hk => h (Or.inr hk.symm)
      simp [pairOf, Store.get_set_of_ne, hvalue, hflag]
  | delete keys =>
      have hvalue : kvKey key ∉ keys := fun hk => h (Or.inl hk)
      have hflag : encKey key ∉ keys := fun hk => h (Or.inr hk)
      simp [pairOf, Store.get_delete, hvalue, hflag]
  | kvencNonce k now =>
      obtain ⟨clientId, rfl⟩ := hnonce
      have hvalue : kvKey key ≠ nonceKey clientId := by
        rw [kvKey_eq, nonceKey_eq]
        simp
      have hflag : encKey key ≠ nonceKey clientId := by
        rw [encKey_eq, nonceKey_eq]
        simp
      simp only [exec, kvencNonceLua, pairOf]
      cases lastNonce w.store (nonceKey clientId) with
      | none => rfl
      | some last => simp [Store.get_set_of_ne, hvalue, hflag]
  | expire k seconds => simp [pairOf, exec]
  | xadd k fields => rfl
  | _ => rfl

theorem pairOf_set_value (w : World) (value : Bytes) :
    pairOf key (exec (.set (kvKey key) value) w).2.store =
      ⟨some value, (pairOf key w.store).flag⟩ := by
  simp [pairOf, Store.get_set_of_ne, encKey_ne_kvKey]

theorem pairOf_set_flag (w : World) (flag : Bytes) :
    pairOf key (exec (.set (encKey key) flag) w).2.store =
      ⟨(pairOf key w.store).value, some flag⟩ := by
  simp [pairOf, Store.get_set_of_ne, (encKey_ne_kvKey key).symm]

theorem pairOf_delete_flag (w : World) :
    pairOf key (exec (.delete [encKey key]) w).2.store = ⟨(pairOf key w.store).value, none⟩ := by
  simp [pairOf, Store.get_delete, (encKey_ne_kvKey key).symm]

theorem pairOf_delete (w : World) :
    pairOf key (exec (.delete [kvKey key, encKey key]) w).2.store = ⟨none, none⟩ := by
  simp [pairOf, Store.get_delete]

end Store

section Runs

variable (site : Site) (key : Text)

-- Requests of any kind that are about the key or leave its records alone.
abbrev Requests := {call : Call // Minds key call}

def programOf (request : Requests key) : Prog Cmd Reply (Except Exn Answer) :=
  request.val.program site

abbrev Serving := System Cmd Reply (Requests key) (Except Exn Answer) World

variable {key}

def phaseAt (s : Serving key) (i : Nat) : Option Phase :=
  (s.threads[i]?).map fun thread =>
    (conduct site key thread.1.val).phase (start key thread.1.val) (s.eventsOf i)

-- The flag a write leaves: what it says, or the one that was there.
def leaves : Option Bool → Option Bytes → Option Bytes
  | some true, _ => some flagOn
  | some false, _ => none
  | none, prior => if truthy prior then some flagOn else prior

-- The pair that one request makes of the pair before it.
def Stores (s : Serving key) (prior pair : Pair) : Prop :=
  ∃ i request p, s.threads[i]? = some (request, p) ∧
    ((Deletes key request.val ∧ pair = ⟨none, none⟩) ∨
      ∃ catalog value flag, Plans site key request.val catalog value flag ∧
        (∀ record k, catalog = some record → catalogRecord request.val = some k →
          (⟨i, .get k, record⟩ : Event Cmd Reply) ∈ s.history) ∧
        pair = ⟨some value, leaves flag prior.flag⟩)

-- The pairs that whole writes have made, one after another, from the first one on.
inductive Settled (s : Serving key) (first : Pair) : Pair → Prop
  | first : Settled s first first
  | stored (prior pair : Pair) (hprior : Settled s first prior) (h : Stores site s prior pair) :
      Settled s first pair

-- Nobody else is halfway through a write of the pair when a command touches it, nor
-- halfway through a read when one changes it.
def Alone (key : Text) (s : Serving key) (i : Nat) (cmd : Cmd) : Prop :=
  (Touches key cmd → ∀ j < s.threads.length, j ≠ i →
    ((phaseAt site s j).any Phase.halfWritten) = false) ∧
  (Changes key cmd → ∀ j < s.threads.length, j ≠ i →
    ((phaseAt site s j).any Phase.halfRead) = false)

instance (s : Serving key) (i : Nat) (cmd : Cmd) : Decidable (Alone site key s i cmd) :=
  inferInstanceAs (Decidable (_ ∧ _))

-- The environment may do anything but change the two records.
def KeepsPair (key : Text) (w w' : World) : Prop :=
  pairOf key w'.store = pairOf key w.store

variable {site}

-- Threads keep their requests and the history only grows.
structure Later (s s' : Serving key) : Prop where
  threads : ∀ (i : Nat) request p, s.threads[i]? = some (request, p) →
    ∃ p', s'.threads[i]? = some (request, p')
  history : ∀ event ∈ s.history, event ∈ s'.history

theorem Stores.mono {s s' : Serving key} {prior pair : Pair} (h : Stores site s prior pair)
    (hlater : Later s s') : Stores site s' prior pair := by
  obtain ⟨i, request, p, hi, hcase⟩ := h
  obtain ⟨p', hi'⟩ := hlater.threads i request p hi
  refine ⟨i, request, p', hi', hcase.imp_right ?_⟩
  rintro ⟨catalog, value, flag, hplan, hread, rfl⟩
  exact ⟨catalog, value, flag, hplan,
    fun record k hr hk => hlater.history _ (hread record k hr hk), rfl⟩

theorem Settled.mono {s s' : Serving key} {first pair : Pair} (h : Settled site s first pair)
    (hlater : Later s s') : Settled site s' first pair := by
  induction h with
  | first => exact Settled.first
  | stored prior pair _ hstores ih => exact Settled.stored prior pair ih (hstores.mono hlater)

section Step

variable {s : Serving key} {first : Pair} {i : Nat} {request : Requests key} {cmd : Cmd}
  {rest : Reply cmd → Prog Cmd Reply (Except Exn Answer)} {phase : Phase}

theorem lt_of_thread {p : Prog Cmd Reply (Except Exn Answer)}
    (hi : s.threads[i]? = some (request, p)) : i < s.threads.length := by
  by_contra hge
  rw [List.getElem?_eq_none (Nat.le_of_not_lt hge)] at hi
  cases hi

theorem lt_of_phaseAt {other : Phase} (h : phaseAt site s i = some other) :
    i < s.threads.length := by
  obtain ⟨⟨request, p⟩, hi, -⟩ := Option.map_eq_some_iff.mp h
  exact lt_of_thread hi

theorem phaseAt_turn (hi : s.threads[i]? = some (request, .call cmd rest))
    (hphase : phaseAt site s i = some phase) :
    phaseAt site (s.turn exec i request cmd rest) = Function.update (phaseAt site s) i
      (some ((conduct site key request.val).next phase cmd (exec cmd s.world).1)) := by
  funext j
  by_cases hj : j = i
  · subst hj
    have hevents : (s.turn exec j request cmd rest).eventsOf j =
        s.eventsOf j ++ [⟨j, cmd, (exec cmd s.world).1⟩] := by
      simp [System.eventsOf, System.turn, List.filter_append]
    have hp : (conduct site key request.val).phase (start key request.val) (s.eventsOf j) = phase := by
      simpa [phaseAt, hi] using hphase
    rw [Function.update_self, phaseAt, hevents]
    simp only [System.turn, List.getElem?_set_self (lt_of_thread hi), Option.map_some,
      Conduct.phase_snoc, hp]
  · have hevents : (s.turn exec i request cmd rest).eventsOf j = s.eventsOf j := by
      simp [System.eventsOf, System.turn, List.filter_append, Ne.symm hj]
    rw [Function.update_of_ne hj, phaseAt, phaseAt, hevents]
    simp only [System.turn, List.getElem?_set_ne (Ne.symm hj)]

theorem phaseAt_start (request : Requests key)
    (hfresh : ∀ event ∈ s.history, event.thread < s.threads.length) :
    phaseAt site (s.start request (programOf site key request)) =
      Function.update (phaseAt site s) s.threads.length (some (start key request.val)) := by
  funext j
  by_cases hj : j = s.threads.length
  · subst hj
    have hevents : (s.start request (programOf site key request)).eventsOf s.threads.length = [] := by
      apply List.filter_eq_nil_iff.mpr
      intro event he
      have := hfresh event he
      simp only [decide_eq_true_eq]
      omega
    rw [Function.update_self, phaseAt, hevents]
    simp [System.start, Conduct.phase]
  · rw [Function.update_of_ne hj, phaseAt, phaseAt]
    have hthread : (s.start request (programOf site key request)).threads[j]? = s.threads[j]? := by
      simp only [System.start]
      rcases Nat.lt_or_gt_of_ne hj with hlt | hgt
      · exact List.getElem?_append_left hlt
      · rw [List.getElem?_eq_none (by simp; omega), List.getElem?_eq_none (by omega)]
    rw [hthread]
    rfl

theorem later_turn (hi : s.threads[i]? = some (request, .call cmd rest)) :
    Later s (s.turn exec i request cmd rest) := by
  refine ⟨?_, fun event he => List.mem_append_left _ he⟩
  intro j r p hj
  by_cases hij : i = j
  · subst hij
    rw [hi] at hj
    obtain ⟨rfl, -⟩ := Prod.mk.inj (Option.some.inj hj)
    exact ⟨_, List.getElem?_set_self (lt_of_thread hi)⟩
  · exact ⟨p, (List.getElem?_set_ne hij).trans hj⟩

theorem later_start (request : Requests key) :
    Later s (s.start request (programOf site key request)) := by
  refine ⟨?_, fun event he => he⟩
  intro j r p hj
  exact ⟨p, (List.getElem?_append_left (lt_of_thread hj)).trans hj⟩

theorem stores_of_plan (hi : s.threads[i]? = some (request, .call cmd rest))
    (hphase : phaseAt site s i = some phase) {value : Bytes} {flag : Option Bool}
    (hplan : Plans site key request.val phase.catalog value flag) (prior : Pair) :
    Stores site (s.turn exec i request cmd rest) prior ⟨some value, leaves flag prior.flag⟩ := by
  obtain ⟨p', hi'⟩ := (later_turn hi).threads i request _ hi
  refine ⟨i, request, p', hi', Or.inr ⟨phase.catalog, value, flag, hplan, ?_, rfl⟩⟩
  intro record k hrecord hk
  have hp : (conduct site key request.val).phase (start key request.val) (s.eventsOf i) = phase := by
    simpa [phaseAt, hi] using hphase
  have hstart : (start key request.val).catalog = none := by
    cases hr : request.val with
    | readKv context k' req => by_cases hk' : k' = key <;> simp [start, hk', Phase.catalog]
    | _ => rfl
  rw [← hp] at hrecord
  obtain ⟨thread, hmem⟩ := catalog_read hstart (s.eventsOf i) hrecord hk
  obtain ⟨hhistory, hthread⟩ := List.mem_filter.mp hmem
  obtain rfl : thread = i := by simpa using hthread
  exact (later_turn hi).history _ hhistory

theorem stores_of_delete (hi : s.threads[i]? = some (request, .call cmd rest))
    (hdelete : Deletes key request.val) (prior : Pair) :
    Stores site (s.turn exec i request cmd rest) prior ⟨none, none⟩ := by
  obtain ⟨p', hi'⟩ := (later_turn hi).threads i request _ hi
  exact ⟨i, request, p', hi', Or.inl ⟨hdelete, rfl⟩⟩

theorem Alone.written (h : Alone site key s i cmd) (ht : Touches key cmd) (j : Nat) (other : Phase)
    (hj : j ≠ i) (hother : phaseAt site s j = some other) : other.halfWritten = false := by
  have := h.1 ht j (lt_of_phaseAt hother) hj
  rwa [hother] at this

theorem Alone.closed (h : Alone site key s i cmd) (hc : Changes key cmd) (j : Nat) (other : Phase)
    (hj : j ≠ i) (hother : phaseAt site s j = some other) : other.closed := by
  refine ⟨h.written (Or.inl hc) j other hj hother, ?_⟩
  have := h.2 hc j (lt_of_phaseAt hother) hj
  rwa [hother] at this

section Turn

variable (h : Consistent (Settled site s first) (phaseAt site s) (pairOf key s.world.store))
  (hi : s.threads[i]? = some (request, .call cmd rest))
  (hphase : phaseAt site s i = some phase) (hmay : may site key request.val phase cmd)
  (halone : Alone site key s i cmd) (hnonce : cmd.namesNonce)

include h hphase in
-- Where nobody writes, the pair is settled.
theorem settled_of_rest (hhalf : phase.halfWritten = false)
    (hothers : ∀ j other, j ≠ i → phaseAt site s j = some other → other.halfWritten = false) :
    Settled site s first (pairOf key s.world.store) := by
  apply h.atRest
  intro j other hj
  by_cases hji : j = i
  · subst hji
    rw [hphase] at hj
    obtain rfl := Option.some.inj hj
    exact hhalf
  · exact hothers j other hji hj

include h hi hphase hnonce in
-- A turn that changes neither record, of a request that is not halfway through a write.
theorem look_turn (hc : ¬ Changes key cmd) (hhalf : phase.halfWritten = false) {new : Phase}
    (hnew : (conduct site key request.val).next phase cmd (exec cmd s.world).1 = new)
    (hnewhalf : new.halfWritten = false)
    (hread : new.halfRead = true → phase.halfRead = true ∨
      ∀ j other, j ≠ i → phaseAt site s j = some other → other.halfWritten = false)
    (hknows : new.Knows (Settled site s first) (pairOf key s.world.store)) :
    Consistent (Settled site (s.turn exec i request cmd rest) first)
      (phaseAt site (s.turn exec i request cmd rest))
      (pairOf key (s.turn exec i request cmd rest).world.store) := by
  have hpair : pairOf key (s.turn exec i request cmd rest).world.store =
      pairOf key s.world.store := pairOf_exec s.world hc hnonce
  rw [phaseAt_turn hi hphase, hpair, hnew]
  refine (h.look i ?_ hnewhalf ?_ hknows).mono fun p hp => hp.mono (later_turn hi)
  · intro old hold
    rw [hphase] at hold
    obtain rfl := Option.some.inj hold
    exact hhalf
  · intro hnr
    rcases hread hnr with hr | hr
    · exact Or.inl ⟨phase, hphase, hr⟩
    · exact Or.inr hr

include h hi hphase in
-- A turn of a request that has the two records to itself.
theorem change_turn {new : Phase} {pair' : Pair}
    (hothers : ∀ j other, j ≠ i → phaseAt site s j = some other → other.closed)
    (hnew : (conduct site key request.val).next phase cmd (exec cmd s.world).1 = new)
    (hpair : pairOf key (exec cmd s.world).2.store = pair')
    (hknows : new.Knows (Settled site (s.turn exec i request cmd rest) first) pair')
    (hrest : new.halfWritten = false →
      Settled site (s.turn exec i request cmd rest) first pair') :
    Consistent (Settled site (s.turn exec i request cmd rest) first)
      (phaseAt site (s.turn exec i request cmd rest))
      (pairOf key (s.turn exec i request cmd rest).world.store) := by
  have hpair' : pairOf key (s.turn exec i request cmd rest).world.store = pair' := hpair
  rw [phaseAt_turn hi hphase, hpair', hnew]
  exact (h.mono fun p hp => hp.mono (later_turn hi)).change i hothers hknows hrest

include h hi hphase hmay halone hnonce in
theorem consistent_turn :
    Consistent (Settled site (s.turn exec i request cmd rest) first)
      (phaseAt site (s.turn exec i request cmd rest))
      (pairOf key (s.turn exec i request cmd rest).world.store) := by
  have hlater := later_turn hi
  cases phase with
  | idle catalog =>
      rcases hmay with hquiet | ⟨value, rfl⟩ | ⟨hdelete, rfl⟩
      · obtain ⟨c, hc, -⟩ : ∃ c, (conduct site key request.val).next (.idle catalog) cmd
            (exec cmd s.world).1 = .idle c ∧ _ := next_idle hquiet _
        exact look_turn h hi hphase hnonce hquiet rfl hc rfl (fun hr => by cases hr) trivial
      · have hc : Changes key (.set (kvKey key) value) := Or.inl rfl
        have hsettled := settled_of_rest h hphase rfl (halone.written (Or.inl hc))
        exact change_turn h hi hphase (halone.closed hc) (next_set_value value _)
          (pairOf_set_value s.world value) ⟨_, hsettled.mono hlater, rfl⟩ (fun hw => by cases hw)
      · have hc : Changes key (.delete [kvKey key, encKey key]) := Or.inl (by simp [Cmd.overwrites])
        have hsettled := settled_of_rest h hphase rfl (halone.written (Or.inl hc))
        have hnext : (conduct site key request.val).next (.idle catalog)
            (.delete [kvKey key, encKey key]) () = .idle catalog := by cases catalog <;> rfl
        exact change_turn h hi hphase (halone.closed hc) hnext (pairOf_delete s.world) trivial
          fun _ => Settled.stored _ _ (hsettled.mono hlater) (stores_of_delete hi hdelete _)
  | wrote catalog value =>
      have hothers := h.alone i _ hphase rfl
      obtain ⟨prior, hprior, hpair⟩ := h.knows i _ hphase
      have hstored : ∀ flag, Plans site key request.val catalog value flag →
          Settled site (s.turn exec i request cmd rest) first ⟨some value, leaves flag prior.flag⟩ :=
        fun flag hplan => Settled.stored prior _ (hprior.mono hlater)
          (stores_of_plan hi hphase hplan prior)
      rcases hmay with ⟨rfl, hplan⟩ | ⟨rfl, hplan⟩ | ⟨rfl, hplan⟩
      · have hafter : pairOf key _ = _ := pairOf_set_flag s.world flagOn
        rw [hpair] at hafter
        exact change_turn h hi hphase hothers rfl hafter trivial fun _ => hstored _ hplan
      · have hafter : pairOf key _ = _ := pairOf_delete_flag s.world
        rw [hpair] at hafter
        exact change_turn h hi hphase hothers rfl hafter trivial fun _ => hstored _ hplan
      · have hflag : s.world.store.get (encKey key) = prior.flag := congrArg Pair.flag hpair
        have hnext : (conduct site key request.val).next (.wrote catalog value)
            (.get (encKey key)) (exec (.get (encKey key)) s.world).1 =
              if truthy prior.flag then .kept catalog value else .idle catalog := by
          simp [hflag]
        have hleaves := hstored none hplan
        by_cases ht : truthy prior.flag
        · rw [if_pos ht] at hnext
          exact change_turn h hi hphase hothers hnext hpair ⟨prior, hprior.mono hlater, ht, rfl⟩
            fun hw => by cases hw
        · rw [if_neg ht] at hnext
          rw [leaves, if_neg ht] at hleaves
          exact change_turn h hi hphase hothers hnext hpair trivial fun _ => hleaves
  | kept catalog value =>
      obtain ⟨rfl, hplan⟩ := hmay
      have hothers := h.alone i _ hphase rfl
      obtain ⟨prior, hprior, ht, hpair⟩ := h.knows i _ hphase
      have hleaves := stores_of_plan hi hphase hplan prior
      rw [leaves, if_pos ht] at hleaves
      have hafter : pairOf key _ = _ := pairOf_set_flag s.world flagOn
      rw [hpair] at hafter
      exact change_turn h hi hphase hothers rfl hafter trivial
        fun _ => Settled.stored prior _ (hprior.mono hlater) hleaves
  | asked =>
      by_cases hget : cmd = .get (kvKey key)
      · subst hget
        have hothers := halone.written (Or.inr (Or.inl rfl))
        have hsettled := settled_of_rest h hphase rfl hothers
        cases hvalue : s.world.store.get (kvKey key) with
        | none =>
            have hpair : pairOf key s.world.store = ⟨none, s.world.store.get (encKey key)⟩ := by
              rw [pairOf, hvalue]
            rw [hpair] at hsettled
            have hnext : (conduct site key request.val).next .asked (.get (kvKey key))
                (exec (.get (kvKey key)) s.world).1 = .missing := by simp [hvalue]
            exact look_turn h hi hphase hnonce hmay rfl hnext rfl (fun hr => by cases hr)
              ⟨_, hsettled⟩
        | some value =>
            have hnext : (conduct site key request.val).next .asked (.get (kvKey key))
                (exec (.get (kvKey key)) s.world).1 = .read value := by
              simp [hvalue]
            exact look_turn h hi hphase hnonce hmay rfl hnext rfl (fun _ => Or.inr hothers) hvalue
      · have hnext : (conduct site key request.val).next .asked cmd (exec cmd s.world).1 =
            .asked := by
          cases cmd with
          | get k =>
              have hk : k ≠ kvKey key := fun hk => hget (by rw [hk])
              simp [hk]
          | _ => rfl
        exact look_turn h hi hphase hnonce hmay rfl hnext rfl (fun hr => by cases hr) trivial
  | missing =>
      have hnext : (conduct site key request.val).next .missing cmd (exec cmd s.world).1 =
          .missing := by cases cmd <;> rfl
      exact look_turn h hi hphase hnonce hmay rfl hnext rfl (fun hr => by cases hr)
        (h.knows i _ hphase)
  | read value =>
      have hvalue : s.world.store.get (kvKey key) = some value := h.knows i _ hphase
      by_cases hget : cmd = .get (encKey key)
      · subst hget
        have hothers := halone.written (Or.inr (Or.inr rfl))
        have hsettled := settled_of_rest h hphase rfl hothers
        rw [pairOf, hvalue] at hsettled
        have hnext : (conduct site key request.val).next (.read value) (.get (encKey key))
            (exec (.get (encKey key)) s.world).1 =
              .seen value (s.world.store.get (encKey key)) := by simp
        exact look_turn h hi hphase hnonce hmay rfl hnext rfl (fun hr => by cases hr) hsettled
      · have hnext : (conduct site key request.val).next (.read value) cmd (exec cmd s.world).1 =
            .read value := by
          cases cmd with
          | get k =>
              have hk : k ≠ encKey key := fun hk => hget (by rw [hk])
              simp [hk]
          | _ => rfl
        exact look_turn h hi hphase hnonce hmay rfl hnext rfl (fun _ => Or.inl rfl) hvalue
  | seen value flag =>
      have hnext : (conduct site key request.val).next (.seen value flag) cmd
          (exec cmd s.world).1 = .seen value flag := by cases cmd <;> rfl
      exact look_turn h hi hphase hnonce hmay rfl hnext rfl (fun hr => by cases hr)
        (h.knows i _ hphase)

end Turn

end Step

-- One run of the service in which every turn finds the pair for itself.
abbrev RunsAlone (site : Site) (key : Text) (world : World) (s : Serving key) : Prop :=
  Run exec (programOf site key) (KeepsPair key) (OnTurn exec (Alone site key)) (.initial world) s

section Whole

variable {world : World} {s : Serving key}
  {condition : Serving key → Serving key → Prop}

theorem conducted_of_run
    (hrun : Run exec (programOf site key) (KeepsPair key) condition (.initial world) s) :
    (∀ event ∈ s.history, event.thread < s.threads.length) ∧
      s.Conducted (fun request => conduct site key request.val)
        (fun request => start key request.val) fun _ phase _ => phase.closed :=
  hrun.conducted fun request => program_closes request.property

theorem closed_start (call : Call) : (start key call).closed := by
  cases call with
  | readKv context k request => by_cases hk : k = key <;> simp [start, hk, Phase.closed,
      Phase.halfWritten, Phase.halfRead]
  | _ => exact ⟨rfl, rfl⟩

theorem consistent_of_run (hrun : RunsAlone site key world s) :
    Consistent (Settled site s (pairOf key world.store)) (phaseAt site s)
      (pairOf key s.world.store) := by
  induction hrun with
  | refl =>
      refine ⟨fun _ => Settled.first, ?_, ?_⟩
      · intro i phase hi
        cases hi
      · intro i phase hi
        cases hi
  | @tail a b hprev hstep ih =>
      obtain ⟨hfresh, hconducted⟩ := conducted_of_run hprev
      obtain ⟨hstep, hcondition⟩ := hstep
      cases hstep with
      | start request =>
          rw [phaseAt_start request hfresh]
          refine (ih.look a.threads.length ?_ (closed_start _).1 ?_ ?_).mono
            fun p hp => hp.mono (later_start request)
          · intro old hold
            have := lt_of_phaseAt hold
            omega
          · intro hr
            rw [(closed_start _).2] at hr
            cases hr
          · cases hcall : request.val with
            | readKv context k req => by_cases hk : k = key <;> simp [start, hk, Phase.Knows]
            | _ => trivial
      | turn i request cmd rest hi =>
          have hobeys := hconducted i request _ hi
          have hnonce : cmd.namesNonce := (Run.issues hprev
            (fun r => (Call.issues site r.val).mono fun c hc => hc.nonce) i request _ hi).1
          have hphase : phaseAt site a i = some ((conduct site key request.val).phase
              (start key request.val) (a.eventsOf i)) := by simp [phaseAt, hi]
          exact consistent_turn ih hi hphase hobeys.1 ((onTurn_turn hi).mp hcondition) hnonce
      | drift w hw =>
          have hpair : pairOf key w.store = pairOf key a.world.store := hw
          change Consistent _ (phaseAt site a) (pairOf key w.store)
          rw [hpair]
          exact ih.mono fun p hp => hp.mono ⟨fun _ _ p h => ⟨p, h⟩, fun _ h => h⟩

end Whole

-- What a read answers when it found this pair.
inductive Serves (hmac : Hmac) (context : Context) (request : Request) : Pair → Response → Prop
  | missing (flag : Option Bytes) (response : Response)
      (hbody : Msgpack.packb (statusValue "not_found".toList) = some response.body) :
      Serves hmac context request ⟨none, flag⟩ response
  | plain (value : Bytes) (flag : Option Bytes) (response : Response)
      (hflag : truthy flag = false) (hbody : response.body = value) :
      Serves hmac context request ⟨some value, flag⟩ response
  | encrypted (value plaintext : Bytes) (flag : Option Bytes) (nonce : Int) (response : Response)
      (hflag : truthy flag) (hplain : encryptedPlaintext value = .ok plaintext)
      (hresponse : signedEncryptedResponse hmac context request plaintext nonce = .ok response) :
      Serves hmac context request ⟨some value, flag⟩ response

-- With the pair to itself at every access, each read serves a pair that whole writes
-- made, and such a pair is left once all requests have ended.
theorem pairs_settled_of_alone (site : Site) (key : Text) {world : World} {s : Serving key}
    (hrun : RunsAlone site key world s) :
    (∀ (i : Nat) (read : Requests key) (context : Context) (request : Request)
        (response : Response), read.val = .readKv context key request →
      s.threads[i]? = some (read, .done (.ok (.device response))) →
      ∃ pair, Settled site s (pairOf key world.store) pair ∧
        Serves site.hmac context request pair response) ∧
    ((∀ thread ∈ s.threads, ∃ result, thread.2 = .done result) →
      Settled site s (pairOf key world.store) (pairOf key s.world.store)) := by
  have hconsistent := consistent_of_run hrun
  obtain ⟨-, hconducted⟩ := conducted_of_run hrun
  constructor
  · intro i read context request response hread hi
    have hafter := hrun.threads_of_initial i read _ hi
    have hreturns : Handler.Returns (Answer.device <$> readKv site.hmac context key request)
        (s.eventsOf i) (.ok (.device response)) := by
      have hprogram : programOf site key read =
          (Answer.device <$> readKv site.hmac context key request : Handler Answer).run := by
        rw [programOf, hread]
        rfl
      rw [hprogram] at hafter
      exact hafter
    obtain ⟨found, hfound, hsame⟩ := Handler.returns_map_ok.mp hreturns
    obtain rfl := Answer.device.inj hsame
    have htrace := readKv_trace hfound
    have hknows := hconsistent.knows i
    have hphase : phaseAt site s i = some ((conduct site key (.readKv context key request)).phase
        .asked (s.eventsOf i)) := by
      simp [phaseAt, hi, hread, start]
    generalize s.eventsOf i = events at htrace hphase
    cases htrace with
    | missing a b ts response hbody =>
        have hmissing : phaseAt site s i = some .missing := by
          rw [hphase]
          simp [Conduct.phase]
        obtain ⟨flag, hflag⟩ := hknows _ hmissing
        exact ⟨_, hflag, Serves.missing flag _ hbody⟩
    | plain a b c ts value flag response hflag hbody =>
        have hseen : phaseAt site s i = some (.seen value flag) := by
          rw [hphase]
          simp [Conduct.phase]
        exact ⟨_, hknows _ hseen, Serves.plain value flag _ hflag hbody⟩
    | encrypted a b c d now nonce value plaintext flag response hflag hplain hresponse =>
        have hseen : phaseAt site s i = some (.seen value flag) := by
          rw [hphase]
          simp [Conduct.phase]
        exact ⟨_, hknows _ hseen, Serves.encrypted value plaintext flag nonce _ hflag hplain hresponse⟩
  · intro hdone
    apply hconsistent.atRest
    intro i phase hi
    obtain ⟨⟨request, p⟩, hthread, hp⟩ := Option.map_eq_some_iff.mp hi
    obtain ⟨result, hresult⟩ := hdone _ (List.mem_of_getElem? hthread)
    obtain rfl : p = .done result := hresult
    have hclosed := hconducted i request _ hthread
    rw [← hp]
    exact hclosed.1

-- An encrypted write of a string, and reads of it by the same client.
def nothingStored : World :=
  ⟨.empty, 100, 7⟩

def secretBody : Bytes := [0xa2, 0x70, 0x77]

def writeSecret : Requests ['k'] :=
  ⟨.writeKv .small ['k'] ⟨"POST".toList, "/kv/k".toList,
    [("x-encrypted".toList, "1".toList)], secretBody⟩, Or.inl rfl⟩

def readSecret : Requests ['k'] :=
  ⟨.readKv .small ['k'] ⟨"GET".toList, "/kv/k".toList, [], []⟩, Or.inl rfl⟩

-- Two reads overlap once the write has ended.
def readsAfterWrite : List (Move (Requests ['k']) World) :=
  [.start writeSecret, .turn 0, .turn 0, .turn 0, .start readSecret, .start readSecret,
    .turn 1, .turn 2, .turn 1, .turn 2, .turn 1, .turn 1, .turn 2, .turn 2]

set_option maxRecDepth 10000 in
theorem pairs_settled_of_readsAfterWrite :
    let s := (System.initial nothingStored : Serving ['k']).play exec (programOf .small ['k'])
      readsAfterWrite
    (∃ response pair, s.threads[1]? = some (readSecret, .done (.ok (.device response))) ∧
      Settled .small s ⟨none, none⟩ pair ∧
      Serves Site.small.hmac .small ⟨"GET".toList, "/kv/k".toList, [], []⟩ pair response) ∧
    Settled .small s ⟨none, none⟩ ⟨some secretBody, some flagOn⟩ := by
  have hrun : RunsAlone .small ['k'] nothingStored _ :=
    Run.of_checkPlay (fun s move => onTurn_move s move) readsAfterWrite (by decide)
  obtain ⟨hreads, hleft⟩ := pairs_settled_of_alone .small ['k'] hrun
  constructor
  · obtain ⟨pair, hsettled, hserves⟩ := hreads 1 readSecret _ _ _ rfl rfl
    exact ⟨_, pair, rfl, hsettled, hserves⟩
  · have hidle : ∀ thread ∈ ((System.initial nothingStored : Serving ['k']).play exec
        (programOf .small ['k']) readsAfterWrite).threads, thread.2.isCall = false := by decide
    exact hleft fun thread ht => Prog.done_of_not_isCall (hidle thread ht)

-- The read comes in between the two commands of the write.
def readInBetween : List (Move (Requests ['k']) World) :=
  [.start writeSecret, .turn 0, .start readSecret, .turn 1, .turn 1, .turn 1]

-- Every value that can have been stored comes with its flag.
theorem flag_of_settled {s : Serving ['k']} {first pair : Pair}
    (hthreads : s.threads.map Prod.fst = [writeSecret, readSecret])
    (h : Settled .small s first pair) : pair = first ∨ pair.flag = some flagOn := by
  cases h with
  | first => exact Or.inl rfl
  | stored prior pair _ hstores =>
      obtain ⟨i, request, p, hi, hcase⟩ := hstores
      right
      have hmem : request ∈ [writeSecret, readSecret] := by
        rw [← hthreads]
        exact List.mem_map_of_mem (List.mem_of_getElem? hi)
      simp only [List.mem_cons, List.not_mem_nil, or_false] at hmem
      rcases hmem with rfl | rfl
      · rcases hcase with ⟨hdelete, -⟩ | ⟨catalog, value, flag, hplan, -, rfl⟩
        · cases hdelete
        · obtain ⟨-, -, rfl⟩ := hplan
          rfl
      · rcases hcase with ⟨hdelete, -⟩ | ⟨catalog, value, flag, hplan, -⟩
        · cases hdelete
        · cases hplan

set_option maxRecDepth 10000 in
theorem read_serves_secret_plain :
    ∃ s : Serving ['k'],
      Run exec (programOf .small ['k']) (KeepsPair ['k']) (fun _ _ => True)
        (.initial nothingStored) s ∧
      (∃ response, s.threads[1]? = some (readSecret, .done (.ok (.device response))) ∧
        response.status = 200 ∧ response.body = secretBody) ∧
      pairOf ['k'] s.world.store = ⟨some secretBody, none⟩ ∧
      ¬ Settled .small s (pairOf ['k'] nothingStored.store) ⟨some secretBody, none⟩ := by
  refine ⟨_, Run.of_free_play readInBetween (by decide), ⟨_, rfl, rfl, rfl⟩, by decide, ?_⟩
  intro h
  rcases flag_of_settled rfl h with hfirst | hflag
  · revert hfirst
    decide
  · cases hflag

end Runs

end Stra2us.Kv
