import Mathlib.Algebra.Order.Field.Rat
import Mathlib.Order.MinMax
import Stra2us.Foundation.Binary64

namespace Stra2us.Foundation

-- What a float stands for. Sums and quotients are the exact ones: the special values
-- behave as in IEEE arithmetic, and rounding is left out.
inductive Quantity
  | nan
  | infinite (negative : Bool)
  | finite (value : ℚ)
deriving DecidableEq

namespace Quantity

def ofBinary64 (x : Binary64) : Quantity :=
  if x.isNan then .nan
  else if x.isFinite then
    let size : ℚ := x.toRatio.1 / x.toRatio.2
    .finite (if x.isNegative then -size else size)
  else .infinite x.isNegative

def lt : Quantity → Quantity → Bool
  | .finite a, .finite b => decide (a < b)
  | .finite _, .infinite negative => !negative
  | .infinite negative, .finite _ => negative
  | .infinite a, .infinite b => a && !b
  | _, _ => false

-- Nothing is equal to NaN either.
def le : Quantity → Quantity → Bool
  | .finite a, .finite b => decide (a ≤ b)
  | .finite _, .infinite negative => !negative
  | .infinite negative, .finite _ => negative
  | .infinite a, .infinite b => a || !b
  | _, _ => false

def add : Quantity → Quantity → Quantity
  | .finite a, .finite b => .finite (a + b)
  | .finite _, .infinite negative => .infinite negative
  | .infinite negative, .finite _ => .infinite negative
  | .infinite a, .infinite b => if a = b then .infinite a else .nan
  | _, _ => .nan

def neg : Quantity → Quantity
  | .nan => .nan
  | .infinite negative => .infinite !negative
  | .finite a => .finite (-a)

def sub (a b : Quantity) : Quantity :=
  a.add b.neg

-- `1.0 / x`, which is an error at zero.
def inverse : Quantity → Option Quantity
  | .nan => some .nan
  | .infinite _ => some (.finite 0)
  | .finite a => if a = 0 then none else some (.finite a⁻¹)

-- `max(a, b)` and `min(a, b)`: the first, unless the second is beyond it.
def larger (a b : Quantity) : Quantity :=
  if a.lt b then b else a

def smaller (a b : Quantity) : Quantity :=
  if b.lt a then b else a

variable {a b : Quantity}

theorem inverse_nan : inverse .nan = some .nan := rfl

theorem sub_finite (a b : ℚ) : sub (.finite a) (.finite b) = .finite (a - b) := by
  rw [sub, neg, add, sub_eq_add_neg]

theorem lt_finite {a b : ℚ} : lt (.finite a) (.finite b) = true ↔ a < b := decide_eq_true_iff

theorem le_finite {a b : ℚ} : le (.finite a) (.finite b) = true ↔ a ≤ b := decide_eq_true_iff

theorem larger_finite (a b : ℚ) : larger (.finite a) (.finite b) = .finite (max a b) := by
  unfold larger
  by_cases h : a < b
  · rw [if_pos (lt_finite.mpr h), max_eq_right h.le]
  · rw [if_neg (mt lt_finite.mp h), max_eq_left (not_lt.mp h)]

theorem smaller_finite (a b : ℚ) : smaller (.finite a) (.finite b) = .finite (min a b) := by
  unfold smaller
  by_cases h : b < a
  · rw [if_pos (lt_finite.mpr h), min_eq_right h.le]
  · rw [if_neg (mt lt_finite.mp h), min_eq_left (not_lt.mp h)]

-- Neither bound lets anything but NaN and what lies between them through.
theorem nan_or_between {low high : ℚ} (hlow : le a (.finite low) = false)
    (hhigh : lt (.finite high) a = false) :
    a = .nan ∨ ∃ value, a = .finite value ∧ low < value ∧ value ≤ high := by
  cases a with
  | nan => exact .inl rfl
  | infinite negative =>
      change negative = false at hlow
      change (!negative) = false at hhigh
      rw [hlow] at hhigh
      cases hhigh
  | finite value =>
      have hlt := not_le.mp (of_decide_eq_false hlow)
      have hle := not_lt.mp (of_decide_eq_false hhigh)
      exact .inr ⟨value, rfl, hlt, hle⟩

theorem nan_or_above {low : ℚ} (hlow : le a (.finite low) = false) :
    a = .nan ∨ a = .infinite false ∨ ∃ value, a = .finite value ∧ low < value := by
  cases a with
  | nan => exact .inl rfl
  | infinite negative =>
      change negative = false at hlow
      rw [hlow]
      exact .inr (.inl rfl)
  | finite value => exact .inr (.inr ⟨value, rfl, not_le.mp (of_decide_eq_false hlow)⟩)

end Quantity

end Stra2us.Foundation
