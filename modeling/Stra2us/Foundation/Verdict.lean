import Mathlib.Data.List.Forall2

namespace Stra2us.Foundation

-- What a reader makes of a part of what it reads: it takes the part as it stands, takes it
-- for something else, refuses it with an error made for that, or breaks on it.
inductive Verdict
  | sound
  | loose
  | refused
  | broken
deriving DecidableEq, Repr

namespace Verdict

def stops : Verdict → Bool
  | .sound | .loose => false
  | .refused | .broken => true

-- What ends the reading, if anything does.
def firstStop (verdicts : List Verdict) : Option Verdict :=
  verdicts.find? stops

def AllSound (verdicts : List Verdict) : Prop :=
  ∀ verdict ∈ verdicts, verdict = .sound

variable {before after verdicts : List Verdict}

@[simp] theorem firstStop_nil : firstStop [] = none := rfl

@[simp] theorem firstStop_cons (verdict : Verdict) :
    firstStop (verdict :: verdicts) = if verdict.stops then some verdict else firstStop verdicts := by
  cases verdict <;> rfl

theorem firstStop_append : firstStop (before ++ after) = (firstStop before).or (firstStop after) :=
  List.find?_append

@[simp] theorem allSound_nil : AllSound [] := by
  simp [AllSound]

@[simp] theorem allSound_cons (verdict : Verdict) :
    AllSound (verdict :: verdicts) ↔ verdict = .sound ∧ AllSound verdicts := by
  simp [AllSound]

theorem allSound_append : AllSound (before ++ after) ↔ AllSound before ∧ AllSound after := by
  simp only [AllSound, List.forall_mem_append]

theorem firstStop_of_allSound (h : AllSound verdicts) : firstStop verdicts = none := by
  refine List.find?_eq_none.mpr fun verdict hverdict => ?_
  rw [h verdict hverdict]
  decide

section Readers

variable {ε α β : Type} (meant : ε → Bool)

-- A reader fares as the verdicts on the parts say; `kept` is what it owes to sound ones.
def Fares (verdicts : List Verdict) (kept : α → Prop) : Except ε α → Prop
  | .error e => firstStop verdicts = some (if meant e then .refused else .broken)
  | .ok a => firstStop verdicts = none ∧ (kept a ↔ AllSound verdicts)

-- It fails on purpose or takes every part as it stands.
def Strict (kept : α → Prop) : Except ε α → Prop
  | .error e => meant e = true
  | .ok a => kept a

variable {meant} {kept : α → Prop} {read : Except ε α}

@[simp] theorem fares_ok {a : α} : Fares meant verdicts kept (.ok a) ↔
    firstStop verdicts = none ∧ (kept a ↔ AllSound verdicts) := Iff.rfl

@[simp] theorem fares_error {e : ε} : Fares meant verdicts kept (.error e) ↔
    firstStop verdicts = some (if meant e then .refused else .broken) := Iff.rfl

@[simp] theorem strict_ok {a : α} : Strict meant kept (.ok a) ↔ kept a := Iff.rfl

@[simp] theorem strict_error {e : ε} :
    Strict meant kept (.error e : Except ε α) ↔ meant e = true := Iff.rfl

-- The parts say whether a reader is strict.
theorem Fares.strict_iff (h : Fares meant verdicts kept read) :
    Strict meant kept read ↔ firstStop verdicts = some .refused ∨ AllSound verdicts := by
  cases read with
  | error e =>
      have hstop := fares_error.mp h
      have hloose : ¬ AllSound verdicts := fun hall => by
        rw [firstStop_of_allSound hall] at hstop
        cases hstop
      rw [strict_error, hstop]
      cases meant e with
      | true => simp
      | false => simp [hloose]
  | ok a =>
      obtain ⟨hstop, hkept⟩ := fares_ok.mp h
      rw [strict_ok, hkept, hstop]
      simp

-- Two readers, one after the other.
def both (read : Except ε α) (read' : Except ε β) : Except ε (α × β) := do
  let a ← read
  let b ← read'
  pure (a, b)

theorem Fares.both {kept' : β → Prop} {read' : Except ε β} (h : Fares meant before kept read)
    (h' : Fares meant after kept' read') :
    Fares meant (before ++ after) (fun found => kept found.1 ∧ kept' found.2) (both read read') := by
  cases read with
  | error e =>
      rw [fares_error] at h
      change Fares meant _ _ (.error e)
      rw [fares_error, firstStop_append, h]
      rfl
  | ok a =>
      obtain ⟨hstop, hkept⟩ := fares_ok.mp h
      cases read' with
      | error e =>
          rw [fares_error] at h'
          change Fares meant _ _ (.error e)
          rw [fares_error, firstStop_append, hstop, h']
          rfl
      | ok b =>
          obtain ⟨hstop', hkept'⟩ := fares_ok.mp h'
          change Fares meant _ _ (.ok (a, b))
          rw [fares_ok, firstStop_append, hstop, hstop', allSound_append, hkept, hkept']
          exact ⟨rfl, Iff.rfl⟩

-- What is made of the result may look at further parts, as long as these stop nothing.
theorem Fares.finish {g : α → β} {kept' : β → Prop} (h : Fares meant before kept read)
    (hsilent : firstStop after = none)
    (hkept : ∀ a, read = .ok a → (kept' (g a) ↔ kept a ∧ AllSound after)) :
    Fares meant (before ++ after) kept' (read.map g) := by
  cases read with
  | error e =>
      rw [fares_error] at h
      rw [Except.map, fares_error, firstStop_append, h]
      rfl
  | ok a =>
      obtain ⟨hstop, hsound⟩ := fares_ok.mp h
      rw [Except.map, fares_ok, firstStop_append, hstop, hsilent, allSound_append, hkept a rfl,
        hsound]
      exact ⟨rfl, Iff.rfl⟩

theorem Fares.map {g : α → β} {kept' : β → Prop} (h : Fares meant verdicts kept read)
    (hkept : ∀ a, read = .ok a → (kept' (g a) ↔ kept a)) :
    Fares meant verdicts kept' (read.map g) := by
  have hfinish : Fares meant (verdicts ++ []) kept' (read.map g) :=
    h.finish rfl fun a ha => by
      rw [hkept a ha]
      simp
  rwa [List.append_nil] at hfinish

-- Parts that were looked at without stopping there.
theorem Fares.behind {kept' : α → Prop} (h : Fares meant after kept read)
    (hsilent : firstStop before = none)
    (hkept : ∀ a, read = .ok a → (kept' a ↔ AllSound before ∧ kept a)) :
    Fares meant (before ++ after) kept' read := by
  cases read with
  | error e =>
      rw [fares_error] at h
      rw [fares_error, firstStop_append, hsilent, h]
      rfl
  | ok a =>
      obtain ⟨hstop, hsound⟩ := fares_ok.mp h
      rw [fares_ok, firstStop_append, hstop, hsilent, allSound_append, hkept a rfl, hsound]
      exact ⟨rfl, Iff.rfl⟩

-- A list read item by item.
theorem Fares.mapM {ι : Type} {f : ι → Except ε α} {verdictsOf : ι → List Verdict}
    {keptOf : ι → α → Prop} {items : List ι}
    (h : ∀ item ∈ items, Fares meant (verdictsOf item) (keptOf item) (f item)) :
    Fares meant (items.flatMap verdictsOf) (List.Forall₂ keptOf items) (items.mapM f) := by
  induction items with
  | nil => exact ⟨rfl, by simp⟩
  | cons item rest ih =>
      have hrest := ih fun i hi => h i (List.mem_cons_of_mem _ hi)
      have hboth : Fares meant (verdictsOf item ++ rest.flatMap verdictsOf)
          (List.Forall₂ keptOf (item :: rest))
          ((Verdict.both (f item) (rest.mapM f)).map fun found => found.1 :: found.2) :=
        ((h item (by simp)).both hrest).map fun found _ => List.forall₂_cons
      have hcons : (item :: rest).mapM f =
          (fun found => found.1 :: found.2) <$> Verdict.both (f item) (rest.mapM f) := by
        simp only [List.mapM_cons, Verdict.both, map_bind, map_pure]
      rw [List.flatMap_cons, hcons]
      exact hboth

end Readers

end Verdict

end Stra2us.Foundation
