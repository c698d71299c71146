import Mathlib.Data.List.Basic

namespace Stra2us.Foundation

-- A reader of a log who skips what is dead and stops at the first live item.
namespace Feed

variable {α : Type} (live : α → Bool)

-- What the reader goes past: the dead items and the live one that ends the search.
def passed : List α → List α
  | [] => []
  | a :: rest => if live a then [a] else a :: passed rest

def remaining : List α → List α
  | [] => []
  | a :: rest => if live a then rest else remaining rest

theorem passed_cons (a : α) (rest : List α) :
    passed live (a :: rest) = if live a then [a] else a :: passed live rest := rfl

theorem remaining_cons (a : α) (rest : List α) :
    remaining live (a :: rest) = if live a then rest else remaining live rest := rfl

theorem passed_append_remaining (items : List α) :
    passed live items ++ remaining live items = items := by
  induction items with
  | nil => rfl
  | cons a rest ih =>
      by_cases h : live a
      · simp [passed_cons, remaining_cons, h]
      · simp [passed_cons, remaining_cons, h, ih]

-- The live items among those passed are just the one the search ended on.
theorem filter_passed (items : List α) :
    (passed live items).filter live = (items.find? live).toList := by
  induction items with
  | nil => rfl
  | cons a rest ih =>
      by_cases h : live a
      · simp [passed_cons, h]
      · simp [passed_cons, h, ih]

theorem passed_of_find?_none {items : List α} (h : items.find? live = none) :
    passed live items = items := by
  induction items with
  | nil => rfl
  | cons a rest ih =>
      rw [List.find?_cons] at h
      cases ha : live a with
      | true => simp [ha] at h
      | false =>
          simp only [ha] at h
          simp [passed_cons, ha, ih h]

theorem passed_ne_nil {items : List α} (h : items ≠ []) : passed live items ≠ [] := by
  cases items with
  | nil => exact absurd rfl h
  | cons a rest =>
      by_cases ha : live a <;> simp [passed_cons, ha]

-- A search over a batch that finds something is the search over the whole.
theorem passed_append_of_found {batch : List α} {a : α} (h : batch.find? live = some a)
    (rest : List α) :
    passed live (batch ++ rest) = passed live batch ∧ (batch ++ rest).find? live = some a := by
  refine ⟨?_, by simp [List.find?_append, h]⟩
  induction batch with
  | nil => simp at h
  | cons b batch ih =>
      rw [List.find?_cons] at h
      cases hb : live b with
      | true => simp [passed_cons, hb]
      | false =>
          simp only [hb] at h
          simp [passed_cons, hb, ih h]

-- A batch without a live item is passed as a whole, and the search goes on behind it.
theorem passed_append_of_none {batch : List α} (h : batch.find? live = none) (rest : List α) :
    passed live (batch ++ rest) = batch ++ passed live rest ∧
      (batch ++ rest).find? live = rest.find? live := by
  refine ⟨?_, by simp [List.find?_append, h]⟩
  induction batch with
  | nil => rfl
  | cons b batch ih =>
      rw [List.find?_cons] at h
      cases hb : live b with
      | true => simp [hb] at h
      | false =>
          simp only [hb] at h
          simp [passed_cons, hb, ih h]

theorem getLast?_passed_of_found {items : List α} {a : α} (h : items.find? live = some a) :
    (passed live items).getLast? = some a := by
  induction items with
  | nil => simp at h
  | cons b rest ih =>
      rw [List.find?_cons] at h
      cases hb : live b with
      | true =>
          simp only [hb, Option.some.injEq] at h
          subst h
          simp [passed_cons, hb]
      | false =>
          simp only [hb] at h
          have hlast := ih h
          simp only [passed_cons, hb, Bool.false_eq_true, ite_false]
          rw [List.getLast?_cons, hlast]
          rfl

end Feed

end Stra2us.Foundation
