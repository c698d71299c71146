import Stra2us.Foundation.Text
import Mathlib.Tactic.NormNum
import Mathlib.Tactic.Positivity
import Mathlib.Tactic.Ring

namespace Stra2us.Foundation

-- The low `width` bytes of a number, most significant first.
def beBytes : (width : Nat) → Nat → Bytes
  | 0, _ => []
  | width + 1, n => beBytes width (n / 256) ++ [UInt8.ofNat (n % 256)]

def beNat (bytes : Bytes) : Nat :=
  bytes.foldl (fun n byte => n * 256 + byte.toNat) 0

-- The same bytes read as a two's complement number.
def beInt (bytes : Bytes) : Int :=
  if beNat bytes < 2 ^ (8 * bytes.length - 1) then beNat bytes
  else (beNat bytes : Int) - 2 ^ (8 * bytes.length)

def intBytes (width : Nat) (n : Int) : Bytes :=
  beBytes width (n % 2 ^ (8 * width)).toNat

@[simp] theorem length_beBytes (width n : Nat) : (beBytes width n).length = width := by
  induction width generalizing n with
  | zero => rfl
  | succ width ih => simp [beBytes, ih]

theorem beNat_append_singleton (bytes : Bytes) (byte : UInt8) :
    beNat (bytes ++ [byte]) = beNat bytes * 256 + byte.toNat := by
  simp [beNat, List.foldl_append]

theorem beNat_beBytes (width n : Nat) (h : n < 256 ^ width) : beNat (beBytes width n) = n := by
  induction width generalizing n with
  | zero => simp only [pow_zero] at h; simp [beBytes, beNat]; omega
  | succ width ih =>
      have hdiv : n / 256 < 256 ^ width := by
        apply Nat.div_lt_of_lt_mul
        rw [pow_succ, Nat.mul_comm] at h
        exact h
      rw [beBytes, beNat_append_singleton, ih _ hdiv]
      have hb : (UInt8.ofNat (n % 256)).toNat = n % 256 := by simp
      rw [hb]
      omega

theorem beBytes_injective (width : Nat) {a b : Nat} (ha : a < 256 ^ width) (hb : b < 256 ^ width)
    (h : beBytes width a = beBytes width b) : a = b := by
  rw [← beNat_beBytes width a ha, ← beNat_beBytes width b hb, h]

theorem beInt_intBytes (width : Nat) (n : Int) (hw : 0 < width)
    (hlo : -(2 : Int) ^ (8 * width - 1) ≤ n) (hhi : n < (2 : Int) ^ (8 * width - 1)) :
    beInt (intBytes width n) = n := by
  have hpow : (2 : Nat) ^ (8 * width) = 2 * 2 ^ (8 * width - 1) := by
    rw [← pow_succ']
    congr 1
    omega
  have h256 : (256 : Nat) ^ width = 2 ^ (8 * width) := by
    rw [pow_mul]; norm_num
  have hcast : ((2 : Nat) ^ (8 * width - 1) : Nat) = ((2 : Int) ^ (8 * width - 1)) := by
    norm_cast
  have hcast' : (((2 : Nat) ^ (8 * width) : Nat) : Int) = (2 : Int) ^ (8 * width) := by
    norm_cast
  have hmodlt : (n % 2 ^ (8 * width)).toNat < 256 ^ width := by
    have hpos : (0 : Int) < 2 ^ (8 * width) := by positivity
    have h1 := Int.emod_lt_of_pos n hpos
    have h2 := Int.emod_nonneg n hpos.ne'
    rw [h256]
    omega
  unfold beInt intBytes
  rw [beNat_beBytes _ _ hmodlt, length_beBytes]
  have hpowi : (2 : Int) ^ (8 * width) = 2 * 2 ^ (8 * width - 1) := by
    rw [← hcast', hpow]
    push_cast
    ring
  by_cases hn : 0 ≤ n
  · have hmod : n % 2 ^ (8 * width) = n := Int.emod_eq_of_lt hn (by omega)
    rw [hmod]
    have hlt : n.toNat < 2 ^ (8 * width - 1) := by omega
    simp only [hlt, ite_true]
    omega
  · have hmod : n % 2 ^ (8 * width) = n + 2 ^ (8 * width) := by
      rw [← Int.add_emod_right, Int.emod_eq_of_lt (by omega) (by omega)]
    rw [hmod]
    have hlt : ¬ (n + 2 ^ (8 * width)).toNat < 2 ^ (8 * width - 1) := by omega
    simp only [hlt, ite_false]
    omega

end Stra2us.Foundation
