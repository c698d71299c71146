import Stra2us.Foundation.Interleave

namespace Stra2us.Foundation

-- One cell of the world as the commands see it: what it holds, what a program knows
-- it holds after a command, and what a command stores there. Commands out of scope may
-- do anything to it.
structure Cell {Cmd : Type} {Reply : Cmd → Type} {σ : Type}
    (exec : (cmd : Cmd) → σ → Reply cmd × σ) (V : Type) where
  stored : σ → V
  learns : (cmd : Cmd) → Reply cmd → Option V
  writes : Cmd → Option V
  scope : Cmd → Prop
  stored_write : ∀ cmd v w, scope cmd → writes cmd = some v → stored (exec cmd w).2 = v
  stored_keep : ∀ cmd w, scope cmd → writes cmd = none → stored (exec cmd w).2 = stored w

namespace Cell

variable {Cmd : Type} {Reply : Cmd → Type} {ρ α σ V : Type}
  {exec : (cmd : Cmd) → σ → Reply cmd × σ} {program : ρ → Prog Cmd Reply α}
  {drift : σ → σ → Prop}

def seenAfter (cell : Cell exec V) (cmd : Cmd) (reply : Reply cmd) (seen : Option V) : Option V :=
  match cell.learns cmd reply with
  | some v => some v
  | none => seen

-- What a thread last read or stored.
def lastSeen (cell : Cell exec V) (events : List (Event Cmd Reply)) : Option V :=
  events.foldl (fun seen event => cell.seenAfter event.cmd event.reply seen) none

theorem lastSeen_snoc (cell : Cell exec V) (events : List (Event Cmd Reply))
    (event : Event Cmd Reply) :
    cell.lastSeen (events ++ [event]) =
      cell.seenAfter event.cmd event.reply (cell.lastSeen events) := by
  simp [lastSeen, List.foldl_append]

-- Whatever is replied, the program stores only what is beyond the value it last saw.
def Ascends (cell : Cell exec V) (beyond : V → V → Prop) (possible : (cmd : Cmd) → Reply cmd → Prop) :
    Prog Cmd Reply α → Option V → Prop
  | .done _, _ => True
  | .call cmd next, seen =>
      cell.scope cmd ∧
        (∀ v, cell.writes cmd = some v → ∃ old, seen = some old ∧ beyond old v) ∧
        ∀ reply, possible cmd reply →
          cell.Ascends beyond possible (next reply) (cell.seenAfter cmd reply seen)

theorem Ascends.bind {β : Type} {cell : Cell exec V} {beyond : V → V → Prop}
    {possible : (cmd : Cmd) → Reply cmd → Prop} {p : Prog Cmd Reply β}
    {f : β → Prog Cmd Reply α} {seen : Option V}
    (hp : cell.Ascends beyond possible p seen)
    (hf : ∀ value seen', cell.Ascends beyond possible (f value) seen') :
    cell.Ascends beyond possible (p >>= f) seen := by
  induction p generalizing seen with
  | done value => exact hf value seen
  | call cmd next ih => exact ⟨hp.1, hp.2.1, fun reply h => ih reply (hp.2.2 reply h)⟩

-- A program that never writes the cell ascends from anything.
theorem Ascends.of_issues {cell : Cell exec V} {beyond : V → V → Prop}
    {possible : (cmd : Cmd) → Reply cmd → Prop} {p : Prog Cmd Reply α}
    (hp : p.Issues fun cmd => cell.scope cmd ∧ cell.writes cmd = none) (seen : Option V) :
    cell.Ascends beyond possible p seen := by
  induction p generalizing seen with
  | done value => trivial
  | call cmd next ih =>
      refine ⟨hp.1.1, ?_, fun reply _ => ih reply (hp.2 reply) _⟩
      intro v hv
      rw [hp.1.2] at hv
      cases hv

-- A store happens only while the cell still holds what the thread last saw of it.
def Held (cell : Cell exec V) (s s' : System Cmd Reply ρ α σ) : Prop :=
  ∀ i request cmd next, s.threads[i]? = some (request, .call cmd next) →
    s' = s.turn exec i request cmd next → ∀ v, cell.writes cmd = some v →
      cell.lastSeen (s.eventsOf i) = some (cell.stored s.world)

-- The same about the next move, computed.
def heldAt [DecidableEq V] (cell : Cell exec V) (s : System Cmd Reply ρ α σ) :
    Move ρ σ → Bool
  | .turn i =>
      match s.threads[i]? with
      | some (_, .call cmd _) =>
          cell.writes cmd = none ∨ cell.lastSeen (s.eventsOf i) = some (cell.stored s.world)
      | _ => true
  | _ => true

theorem held_move [DecidableEq V] (cell : Cell exec V) (s : System Cmd Reply ρ α σ)
    (move : Move ρ σ) (h : cell.heldAt s move) : cell.Held s (s.move exec program move) := by
  have hcheck : checkTurn (fun a i cmd => cell.writes cmd = none ∨
      cell.lastSeen (System.eventsOf a i) = some (cell.stored a.world)) s move := by
    cases move with
    | turn i => exact h
    | _ => rfl
  intro i request cmd next hi hturn v hv
  rcases onTurn_move s move hcheck i request cmd next hi hturn with hnone | hheld
  · rw [hnone] at hv
    cases hv
  · exact hheld

def written (cell : Cell exec V) (history : List (Event Cmd Reply)) : List V :=
  history.filterMap fun event => cell.writes event.cmd

variable {beyond : V → V → Prop} {possible : (cmd : Cmd) → Reply cmd → Prop}

section Runs

variable (cell : Cell exec V) (hprogram : ∀ request, cell.Ascends beyond possible (program request) none)
  (hpossible : ∀ cmd w, possible cmd (exec cmd w).1)

include hprogram hpossible in
theorem ascends_of_run {condition : System Cmd Reply ρ α σ → System Cmd Reply ρ α σ → Prop}
    {w : σ} {s : System Cmd Reply ρ α σ}
    (hrun : Run exec program drift condition (.initial w) s) (i : Nat) (request : ρ)
    (p : Prog Cmd Reply α) (h : s.threads[i]? = some (request, p)) :
    cell.Ascends beyond possible p (cell.lastSeen (s.eventsOf i)) := by
  have hinv := hrun.invariant (fun a =>
    (∀ event ∈ a.history, event.thread < a.threads.length) ∧
      ∀ i request p, a.threads[i]? = some (request, p) →
        cell.Ascends beyond possible p (cell.lastSeen (a.eventsOf i)))
    ⟨by simp [System.initial], by simp [System.initial]⟩ ?_
  · exact hinv.2 i request p h
  · rintro a b hs - ⟨hf, ht⟩
    refine ⟨hs.fresh hf, hs.threads (P := fun _ _ p events =>
      cell.Ascends beyond possible p (cell.lastSeen events)) ht hf ?_ ?_⟩
    · intro i request
      exact hprogram request
    · intro i request cmd next _ hp
      rw [lastSeen_snoc]
      exact hp.2.2 _ (hpossible cmd a.world)

include hprogram hpossible in
-- One step of a run keeps the cell or moves it up.
theorem stored_step {condition : System Cmd Reply ρ α σ → System Cmd Reply ρ α σ → Prop}
    (hdrift : ∀ w w', drift w w' → cell.stored w' = cell.stored w)
    {w : σ} {s s' : System Cmd Reply ρ α σ}
    (hrun : Run exec program drift condition (.initial w) s)
    (hs : Step exec program drift s s') (hheld : cell.Held s s') :
    (cell.stored s'.world = cell.stored s.world ∧
      cell.written s'.history = cell.written s.history) ∨
    (beyond (cell.stored s.world) (cell.stored s'.world) ∧
      cell.written s'.history = cell.written s.history ++ [cell.stored s'.world]) := by
  cases hs with
  | start request => exact Or.inl ⟨rfl, rfl⟩
  | drift world hd => exact Or.inl ⟨hdrift _ _ hd, rfl⟩
  | turn i request cmd next hi =>
      have hasc := ascends_of_run cell hprogram hpossible hrun i request _ hi
      cases hw : cell.writes cmd with
      | none =>
          refine Or.inl ⟨cell.stored_keep cmd s.world hasc.1 hw, ?_⟩
          simp [written, System.turn, hw]
      | some v =>
          have hstored : cell.stored (s.turn exec i request cmd next).world = v :=
            cell.stored_write cmd v s.world hasc.1 hw
          obtain ⟨old, hold, hbeyond⟩ := hasc.2.1 v hw
          rw [hheld i request cmd next hi rfl v hw] at hold
          obtain rfl := Option.some.inj hold
          refine Or.inr ⟨by rw [hstored]; exact hbeyond, ?_⟩
          rw [hstored]
          simp [written, System.turn, hw]

include hprogram hpossible in
-- When every store finds the cell unmoved, the stored values go up one after the
-- other, and none is beyond what the cell holds.
theorem written_pairwise (htrans : ∀ a b c, beyond a b → beyond b c → beyond a c)
    (hdrift : ∀ w w', drift w w' → cell.stored w' = cell.stored w)
    {w : σ} {s : System Cmd Reply ρ α σ}
    (hrun : Run exec program drift cell.Held (.initial w) s) :
    (cell.written s.history).Pairwise beyond ∧
      ∀ v ∈ cell.written s.history, v = cell.stored s.world ∨ beyond v (cell.stored s.world) := by
  induction hrun with
  | refl => exact ⟨List.Pairwise.nil, by simp [written, System.initial]⟩
  | tail hprev hs ih =>
      rcases stored_step cell hprogram hpossible hdrift hprev hs.1 hs.2 with ⟨hst, hw⟩ | ⟨hb, hw⟩
      · rw [hst, hw]
        exact ih
      · rw [hw]
        have hbelow : ∀ v ∈ cell.written _, beyond v (cell.stored _) := fun v hv => by
          rcases ih.2 v hv with rfl | hv
          · exact hb
          · exact htrans _ _ _ hv hb
        refine ⟨List.pairwise_append.mpr ⟨ih.1, List.pairwise_singleton _ _, ?_⟩, ?_⟩
        · intro v hv u hu
          rw [List.mem_singleton.mp hu]
          exact hbelow v hv
        · intro v hv
          rcases List.mem_append.mp hv with hv | hv
          · exact Or.inr (hbelow v hv)
          · exact Or.inl (List.mem_singleton.mp hv)

include hprogram hpossible in
-- From any state of the run on, the cell only moves up.
theorem stored_ascends (htrans : ∀ a b c, beyond a b → beyond b c → beyond a c)
    (hdrift : ∀ w w', drift w w' → cell.stored w' = cell.stored w)
    {w : σ} {s s' : System Cmd Reply ρ α σ}
    (hrun : Run exec program drift cell.Held (.initial w) s)
    (hrest : Run exec program drift cell.Held s s') :
    cell.stored s'.world = cell.stored s.world ∨
      beyond (cell.stored s.world) (cell.stored s'.world) := by
  induction hrest with
  | refl => exact Or.inl rfl
  | tail hprev hs ih =>
      have hstep := stored_step cell hprogram hpossible hdrift (hrun.trans hprev) hs.1 hs.2
      rcases hstep with ⟨hst, -⟩ | ⟨hb, -⟩
      · rw [hst]
        exact ih
      · rcases ih with hst | hb'
        · rw [hst] at hb
          exact Or.inr hb
        · exact Or.inr (htrans _ _ _ hb' hb)

end Runs

end Cell

end Stra2us.Foundation
