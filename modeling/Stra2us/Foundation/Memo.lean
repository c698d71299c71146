import Mathlib.Data.List.Basic

namespace Stra2us.Foundation.Memo

-- Answers kept under a key: one that is asked for again is not worked out again.
section Memo

variable {κ α : Type} [DecidableEq κ]

def visit (table : List (κ × α)) (key : κ) (fresh : α) : α × List (κ × α) :=
  match table.lookup key with
  | some kept => (kept, table)
  | none => (fresh, (key, fresh) :: table)

def answers : List (κ × α) → List (κ × α) → List α
  | _, [] => []
  | table, (key, fresh) :: rest =>
      (visit table key fresh).1 :: answers (visit table key fresh).2 rest

def tableAfter : List (κ × α) → List (κ × α) → List (κ × α)
  | table, [] => table
  | table, (key, fresh) :: rest => tableAfter (visit table key fresh).2 rest

variable {table : List (κ × α)} {key : κ} {fresh kept : α}

theorem visit_kept (h : table.lookup key = some kept) :
    visit table key fresh = (kept, table) := by
  unfold visit
  rw [h]

theorem visit_fresh (h : table.lookup key = none) :
    visit table key fresh = (fresh, (key, fresh) :: table) := by
  unfold visit
  rw [h]

@[simp] theorem answers_nil : answers table [] = [] := rfl

@[simp] theorem tableAfter_nil : tableAfter table [] = table := rfl

theorem answers_cons (first : κ × α) (rest : List (κ × α)) :
    answers table (first :: rest) = (visit table first.1 first.2).1 ::
      answers (visit table first.1 first.2).2 rest := rfl

theorem tableAfter_cons (first : κ × α) (rest : List (κ × α)) :
    tableAfter table (first :: rest) = tableAfter (visit table first.1 first.2).2 rest := rfl

@[simp] theorem length_answers (visits : List (κ × α)) :
    (answers table visits).length = visits.length := by
  induction visits generalizing table with
  | nil => rfl
  | cons first rest ih => rw [answers_cons, List.length_cons, ih, List.length_cons]

theorem answers_append (first second : List (κ × α)) :
    answers table (first ++ second) =
      answers table first ++ answers (tableAfter table first) second := by
  induction first generalizing table with
  | nil => rfl
  | cons visit rest ih =>
      rw [List.cons_append, answers_cons, answers_cons, tableAfter_cons, ih, List.cons_append]

-- What is kept under the key of a later visit is what that visit would work out.
def Agrees (table : List (κ × α)) (visits : List (κ × α)) : Prop :=
  ∀ visit ∈ visits, ∀ kept, table.lookup visit.1 = some kept → kept = visit.2

theorem agrees_store (h : table.lookup key = none) (visits : List (κ × α)) :
    Agrees ((key, fresh) :: table) visits ↔
      (∀ visit ∈ visits, key = visit.1 → fresh = visit.2) ∧ Agrees table visits := by
  have hother {k : κ} (hne : key ≠ k) : ((key, fresh) :: table).lookup k = table.lookup k := by
    rw [List.lookup_cons, beq_eq_false_iff_ne.mpr (Ne.symm hne)]
  have hsame : ((key, fresh) :: table).lookup key = some fresh := by
    rw [List.lookup_cons, beq_self_eq_true]
  constructor
  · intro hagrees
    refine ⟨?_, ?_⟩
    · intro visit hmem heq
      exact hagrees visit hmem fresh (heq ▸ hsame)
    · intro visit hmem kept hkept
      have hne : key ≠ visit.1 := by
        intro heq
        rw [← heq, h] at hkept
        cases hkept
      exact hagrees visit hmem kept ((hother hne).trans hkept)
  · intro hboth visit hmem kept hkept
    by_cases heq : key = visit.1
    · rw [← heq, hsame] at hkept
      rw [← Option.some.inj hkept]
      exact hboth.1 visit hmem heq
    · rw [hother heq] at hkept
      exact hboth.2 visit hmem kept hkept

-- By induction on the visits: each either finds the answer of an earlier one or leaves its own.
theorem answers_from (visits : List (κ × α)) :
    answers table visits = visits.map Prod.snd ↔
      Agrees table visits ∧ visits.Pairwise fun a b => a.1 = b.1 → a.2 = b.2 := by
  induction visits generalizing table with
  | nil => simp [answers_nil, Agrees]
  | cons first rest ih =>
      obtain ⟨key, fresh⟩ := first
      rw [answers_cons, List.map_cons, List.cons.injEq, ih, List.pairwise_cons]
      have hsplit : Agrees table ((key, fresh) :: rest) ↔
          (∀ kept, table.lookup key = some kept → kept = fresh) ∧ Agrees table rest := by
        unfold Agrees
        rw [List.forall_mem_cons]
      rw [hsplit]
      cases hlookup : table.lookup key with
      | none =>
          rw [visit_fresh hlookup, agrees_store hlookup]
          simp only [reduceCtorEq, false_implies, implies_true, true_and]
          tauto
      | some kept =>
          rw [visit_kept hlookup]
          simp only [Option.some.injEq, forall_eq']
          constructor
          · rintro ⟨rfl, hagrees, hpairs⟩
            refine ⟨⟨rfl, hagrees⟩, ?_, hpairs⟩
            intro visit hmem heq
            exact hagrees visit hmem kept (by rw [← heq, hlookup])
          · rintro ⟨⟨hkept, hagrees⟩, -, hpairs⟩
            exact ⟨hkept, hagrees, hpairs⟩

-- Every answer is the fresh one just where one key never stands for two.
theorem answers_fresh_iff (visits : List (κ × α)) :
    answers [] visits = visits.map Prod.snd ↔
      visits.Pairwise fun a b => a.1 = b.1 → a.2 = b.2 := by
  have hempty : Agrees ([] : List (κ × α)) visits := by
    intro visit _ kept hkept
    cases hkept
  rw [answers_from]
  exact and_iff_right hempty

end Memo

end Stra2us.Foundation.Memo
