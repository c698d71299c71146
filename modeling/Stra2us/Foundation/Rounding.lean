import Mathlib.Algebra.Order.Floor.Semifield
import Mathlib.Data.Int.Log
import Mathlib.Data.Rat.Floor
import Mathlib.Tactic.Positivity
import Stra2us.Foundation.Binary64

namespace Stra2us.Foundation.Binary64

-- Rounding depends on the quotient alone and leaves a double as it is, so the shortest
-- digits of a double read back as it.

section Logarithm

variable {num den : Nat}

theorem reached_iff (hden : 0 < den) (guess : Int) :
    (if 0 ≤ guess then den * 2 ^ guess.toNat ≤ num else den ≤ num * 2 ^ (-guess).toNat) ↔
      (2 : ℚ) ^ guess ≤ (num : ℚ) / den := by
  have hpos : (0 : ℚ) < den := by exact_mod_cast hden
  rw [le_div_iff₀ hpos]
  by_cases hsign : 0 ≤ guess
  · obtain ⟨n, rfl⟩ := Int.eq_ofNat_of_zero_le hsign
    rw [if_pos hsign, Int.toNat_natCast, zpow_natCast, mul_comm]
    exact_mod_cast Iff.rfl
  · obtain ⟨n, hn⟩ : ∃ n : Nat, guess = -(n : Int) := ⟨guess.natAbs, by omega⟩
    subst hn
    have hpow : (0 : ℚ) < 2 ^ n := by positivity
    rw [if_neg hsign, neg_neg, Int.toNat_natCast, zpow_neg, zpow_natCast, inv_mul_le_iff₀ hpow,
      mul_comm num]
    exact_mod_cast Iff.rfl

theorem floorLog2_eq (hnum : 0 < num) (hden : 0 < den) :
    floorLog2 num den = Int.log 2 ((num : ℚ) / den) := by
  have hq : (0 : ℚ) < (num : ℚ) / den := by positivity
  have htwo : (1 : Nat) < 2 := by omega
  have hreached := @reached_iff num den hden (Nat.log2 num - Nat.log2 den)
  have htwo' : (2 : ℚ) ≠ 0 := by norm_num
  have hnumLow : (2 : ℚ) ^ Nat.log2 num ≤ num := by exact_mod_cast Nat.log2_self_le hnum.ne'
  have hnumUp : (num : ℚ) < 2 ^ (Nat.log2 num + 1) := by exact_mod_cast Nat.lt_log2_self
  have hdenLow : (2 : ℚ) ^ Nat.log2 den ≤ den := by exact_mod_cast Nat.log2_self_le hden.ne'
  have hdenUp : (den : ℚ) < 2 ^ (Nat.log2 den + 1) := by exact_mod_cast Nat.lt_log2_self
  have hup : (num : ℚ) / den < (2 : ℚ) ^ ((Nat.log2 num : Int) - Nat.log2 den + 1) := by
    have hexp : ((Nat.log2 num : Int) - Nat.log2 den + 1) =
        (Nat.log2 num + 1 : Nat) - Nat.log2 den := by
      push_cast
      ring
    rw [hexp, zpow_sub₀ htwo', zpow_natCast, zpow_natCast]
    exact div_lt_div₀ hnumUp hdenLow (by positivity) (by positivity)
  have hlow : (2 : ℚ) ^ ((Nat.log2 num : Int) - Nat.log2 den - 1) ≤ (num : ℚ) / den := by
    have hexp : ((Nat.log2 num : Int) - Nat.log2 den - 1) =
        Nat.log2 num - (Nat.log2 den + 1 : Nat) := by
      push_cast
      ring
    rw [hexp, zpow_sub₀ htwo', zpow_natCast, zpow_natCast]
    exact div_le_div₀ (by positivity) hnumLow (by positivity) hdenUp.le
  have hlt : Int.log 2 ((num : ℚ) / den) < Nat.log2 num - Nat.log2 den + 1 :=
    (Int.lt_zpow_iff_log_lt htwo hq).mp (by exact_mod_cast hup)
  have hle : (Nat.log2 num : Int) - Nat.log2 den - 1 ≤ Int.log 2 ((num : ℚ) / den) :=
    (Int.zpow_le_iff_le_log htwo hq).mp (by exact_mod_cast hlow)
  unfold floorLog2
  dsimp only
  by_cases hhit : (2 : ℚ) ^ ((Nat.log2 num : Int) - Nat.log2 den) ≤ (num : ℚ) / den
  · rw [if_pos (hreached.mpr hhit)]
    have hge : (Nat.log2 num : Int) - Nat.log2 den ≤ Int.log 2 ((num : ℚ) / den) :=
      (Int.zpow_le_iff_le_log htwo hq).mp (by exact_mod_cast hhit)
    omega
  · rw [if_neg fun h => hhit (hreached.mp h)]
    have hge : Int.log 2 ((num : ℚ) / den) < Nat.log2 num - Nat.log2 den :=
      (Int.lt_zpow_iff_log_lt htwo hq).mp (by exact_mod_cast not_le.mp hhit)
    omega

end Logarithm

section Scaling

variable {num den : Nat}

theorem roundHalfEven_mul (num den : Nat) {k : Nat} (hk : 0 < k) :
    roundHalfEven (num * k) (den * k) = roundHalfEven num den := by
  have hdiv : num * k / (den * k) = num / den := Nat.mul_div_mul_right _ _ hk
  have hmod : num * k % (den * k) = num % den * k := Nat.mul_mod_mul_right _ _ _
  have hlow : 2 * (num % den * k) < den * k ↔ 2 * (num % den) < den := by
    rw [← Nat.mul_assoc]
    exact Nat.mul_lt_mul_right hk
  have hhigh : 2 * (num % den * k) > den * k ↔ 2 * (num % den) > den := by
    rw [← Nat.mul_assoc]
    exact Nat.mul_lt_mul_right hk
  simp only [roundHalfEven, hdiv, hmod, hlow, hhigh]

-- A quotient that is an integer is its own rounding.
theorem roundHalfEven_exact (q : Nat) {den : Nat} (hden : 0 < den) :
    roundHalfEven (q * den) den = q := by
  simp [roundHalfEven, Nat.mul_div_cancel _ hden, hden]

theorem roundBits_zero (den : Nat) : roundBits 0 den = 0 := by
  unfold roundBits
  rw [if_pos rfl]

theorem roundBits_mul (hden : 0 < den) {k : Nat} (hk : 0 < k) :
    roundBits (num * k) (den * k) = roundBits num den := by
  by_cases hnum : num = 0
  · rw [hnum, Nat.zero_mul, roundBits_zero, roundBits_zero]
  · have hpos : 0 < num := by omega
    have hk' : (k : ℚ) ≠ 0 := by exact_mod_cast hk.ne'
    have hlog : floorLog2 (num * k) (den * k) = floorLog2 num den := by
      rw [floorLog2_eq (Nat.mul_pos hpos hk) (Nat.mul_pos hden hk), floorLog2_eq hpos hden]
      push_cast
      rw [mul_div_mul_right _ _ hk']
    have hne : num * k ≠ 0 := Nat.mul_ne_zero hnum hk.ne'
    unfold roundBits
    rw [if_neg hne, if_neg hnum, hlog]
    generalize (floorLog2 num den - 52 + 1074).toNat = unit
    dsimp only
    by_cases hunit : 1074 ≤ unit
    · rw [if_pos hunit, if_pos hunit, Nat.mul_right_comm, roundHalfEven_mul _ _ hk]
    · rw [if_neg hunit, if_neg hunit, Nat.mul_right_comm, roundHalfEven_mul _ _ hk]

theorem roundBits_congr {num' den' : Nat} (hden : 0 < den) (hden' : 0 < den')
    (h : num * den' = num' * den) : roundBits num den = roundBits num' den' := by
  rw [← roundBits_mul hden hden', ← roundBits_mul hden' hden, h, Nat.mul_comm den den']

end Scaling

section Exactness

variable (x : Binary64)

theorem toRatio_den_pos : 0 < x.toRatio.2 := by
  unfold toRatio
  split_ifs
  · exact Nat.one_pos
  · exact Nat.two_pow_pos _

theorem magnitude_lt : x.magnitude < 2 ^ 63 := Nat.mod_lt _ (by decide)

theorem ofSignAndBits_magnitude : ofSignAndBits x.isNegative x.magnitude = x := by
  have hlt := x.bits.toNat_lt
  have hsplit : (if x.isNegative then 2 ^ 63 else 0) + x.magnitude = x.bits.toNat := by
    simp only [isNegative, magnitude, decide_eq_true_eq]
    split_ifs <;> omega
  unfold ofSignAndBits
  rw [hsplit]
  cases x
  simp

-- Both kinds of doubles are `significand * 2 ^ exponent` of the least unit.
theorem magnitude_eq (h : x.magnitude ≠ 0) : x.significand ≠ 0 ∧ Nat.log2 x.significand ≤ 52 ∧
    (x.exponent = 0 ∨ Nat.log2 x.significand = 52) ∧
      x.exponent * 2 ^ 52 + x.significand = x.magnitude := by
  unfold significand exponent
  split_ifs with hsmall
  · have hzero : x.magnitude / 2 ^ 52 - 1 = 0 := by omega
    refine ⟨h, ?_, .inl hzero, by rw [hzero]; omega⟩
    have hlog := (Nat.log2_lt h).mpr hsmall
    omega
  · have hpos : 2 ^ 52 + x.magnitude % 2 ^ 52 ≠ 0 := by omega
    have hlow : 52 ≤ Nat.log2 (2 ^ 52 + x.magnitude % 2 ^ 52) :=
      (Nat.le_log2 hpos).mpr (Nat.le_add_right _ _)
    have hup : Nat.log2 (2 ^ 52 + x.magnitude % 2 ^ 52) < 53 := by
      rw [Nat.log2_lt hpos]
      omega
    refine ⟨hpos, by omega, .inr (by omega), by omega⟩

theorem toRatio_eq : (x.toRatio.1 : ℚ) / x.toRatio.2 =
    x.significand * (2 : ℚ) ^ ((x.exponent : Int) - 1074) := by
  unfold toRatio
  by_cases hlarge : 1074 ≤ x.exponent
  · have hexp : (x.exponent : Int) - 1074 = (x.exponent - 1074 : Nat) := by omega
    rw [if_pos hlarge, hexp, zpow_natCast]
    push_cast
    rw [div_one]
  · have hexp : (x.exponent : Int) - 1074 = -(1074 - x.exponent : Nat) := by omega
    rw [if_neg hlarge, hexp, zpow_neg, zpow_natCast]
    push_cast
    rw [div_eq_mul_inv]

theorem toRatio_num_pos (h : x.magnitude ≠ 0) : 0 < x.toRatio.1 := by
  have hsig : 0 < x.significand := Nat.pos_of_ne_zero (magnitude_eq x h).1
  unfold toRatio
  by_cases hlarge : 1074 ≤ x.exponent
  · rw [if_pos hlarge]
    exact Nat.mul_pos hsig (Nat.two_pow_pos _)
  · rw [if_neg hlarge]
    exact hsig

theorem floorLog2_toRatio (h : x.magnitude ≠ 0) : floorLog2 x.toRatio.1 x.toRatio.2 =
    (Nat.log2 x.significand : Int) + ((x.exponent : Int) - 1074) := by
  have hsig : x.significand ≠ 0 := (magnitude_eq x h).1
  have htwo : (2 : ℚ) ≠ 0 := by norm_num
  have hlow : (2 : ℚ) ^ Nat.log2 x.significand ≤ x.significand := by
    exact_mod_cast Nat.log2_self_le hsig
  have hup : (x.significand : ℚ) < 2 ^ (Nat.log2 x.significand + 1) := by
    exact_mod_cast Nat.lt_log2_self
  have hunit : (0 : ℚ) < (2 : ℚ) ^ ((x.exponent : Int) - 1074) := zpow_pos (by norm_num) _
  have hpos : (0 : ℚ) < x.significand := by exact_mod_cast Nat.pos_of_ne_zero hsig
  have hq : (0 : ℚ) < x.significand * (2 : ℚ) ^ ((x.exponent : Int) - 1074) := mul_pos hpos hunit
  rw [floorLog2_eq (toRatio_num_pos x h) (toRatio_den_pos x), toRatio_eq]
  apply le_antisymm
  · have hlt : (x.significand : ℚ) * (2 : ℚ) ^ ((x.exponent : Int) - 1074) <
        (2 : ℚ) ^ ((Nat.log2 x.significand : Int) + ((x.exponent : Int) - 1074) + 1) := by
      have hexp : (Nat.log2 x.significand : Int) + ((x.exponent : Int) - 1074) + 1 =
          (Nat.log2 x.significand + 1 : Nat) + ((x.exponent : Int) - 1074) := by
        push_cast
        ring
      rw [hexp, zpow_add₀ htwo, zpow_natCast]
      exact mul_lt_mul_of_pos_right hup hunit
    have := (Int.lt_zpow_iff_log_lt (by omega : 1 < 2) hq).mp (by exact_mod_cast hlt)
    exact Int.lt_add_one_iff.mp this
  · have hle : (2 : ℚ) ^ ((Nat.log2 x.significand : Int) + ((x.exponent : Int) - 1074)) ≤
        (x.significand : ℚ) * (2 : ℚ) ^ ((x.exponent : Int) - 1074) := by
      rw [zpow_add₀ htwo, zpow_natCast]
      exact mul_le_mul_of_nonneg_right hlow hunit.le
    exact (Int.zpow_le_iff_le_log (by omega : 1 < 2) hq).mp (by exact_mod_cast hle)

theorem toRatio_num_zero (h : x.magnitude = 0) : x.toRatio.1 = 0 := by
  have hsig : x.significand = 0 := by
    simp [significand, h]
  unfold toRatio
  by_cases hlarge : 1074 ≤ x.exponent
  · rw [if_pos hlarge, hsig, Nat.zero_mul]
  · rw [if_neg hlarge, hsig]

-- A double is its own rounding.
theorem roundBits_toRatio (h : x.magnitude ≠ 0) :
    roundBits x.toRatio.1 x.toRatio.2 = x.magnitude := by
  obtain ⟨hsig, hlog, hkind, hsum⟩ := magnitude_eq x h
  have hunit : (floorLog2 x.toRatio.1 x.toRatio.2 - 52 + 1074).toNat = x.exponent := by
    rw [floorLog2_toRatio x h]
    omega
  unfold roundBits
  rw [if_neg (toRatio_num_pos x h).ne', hunit]
  dsimp only
  have hround : (if 1074 ≤ x.exponent then
      roundHalfEven x.toRatio.1 (x.toRatio.2 * 2 ^ (x.exponent - 1074))
        else roundHalfEven (x.toRatio.1 * 2 ^ (1074 - x.exponent)) x.toRatio.2) = x.significand := by
    unfold toRatio
    by_cases hlarge : 1074 ≤ x.exponent
    · rw [if_pos hlarge, if_pos hlarge, Nat.one_mul]
      exact roundHalfEven_exact _ (Nat.two_pow_pos _)
    · rw [if_neg hlarge, if_neg hlarge]
      exact roundHalfEven_exact _ (Nat.two_pow_pos _)
  rw [hround, hsum]

-- So is any quotient that is its value.
theorem ofRatio_exact (hfinite : x.isFinite = true) {num den : Nat} (hden : 0 < den)
    (h : num * x.toRatio.2 = x.toRatio.1 * den) : ofRatio x.isNegative num den = x := by
  have hlt : x.magnitude < infinityBits := by simpa [isFinite] using hfinite
  have hbits : roundBits num den = x.magnitude := by
    by_cases hzero : x.magnitude = 0
    · have hnum : num = 0 := by
        rw [toRatio_num_zero x hzero, Nat.zero_mul] at h
        exact (Nat.mul_eq_zero.mp h).resolve_right (toRatio_den_pos x).ne'
      rw [hnum, roundBits_zero, hzero]
    · rw [roundBits_congr hden (toRatio_den_pos x) h, roundBits_toRatio x hzero]
  unfold ofRatio
  rw [hbits, Nat.min_eq_left hlt.le, ofSignAndBits_magnitude]

end Exactness

section Decimals

variable (x : Binary64)

theorem ofDecimal_eq (negative : Bool) (digits : Nat) (exp10 : Int) :
    ofDecimal negative digits exp10 =
      ofRatio negative (digits * 10 ^ exp10.toNat) (10 ^ (-exp10).toNat) := by
  unfold ofDecimal
  by_cases hsign : 0 ≤ exp10
  · have hzero : (-exp10).toNat = 0 := by omega
    rw [if_pos hsign, hzero, Nat.pow_zero]
  · have hzero : exp10.toNat = 0 := by omega
    rw [if_neg hsign, hzero, Nat.pow_zero, Nat.mul_one]

theorem ofDecimal_zero (h : x.magnitude = 0) (exp10 : Int) :
    ofDecimal x.isNegative 0 exp10 = x := by
  rw [ofDecimal_eq, Nat.zero_mul]
  unfold ofRatio
  rw [roundBits_zero, Nat.zero_min, ← h, ofSignAndBits_magnitude]

-- Zeros behind the digits make up for a smaller exponent.
theorem ofDecimal_zeros (negative : Bool) (digits k : Nat) (exp10 : Int) :
    ofDecimal negative (digits * 10 ^ k) exp10 = ofDecimal negative digits (exp10 + k) := by
  have hsplit : digits * 10 ^ k * 10 ^ exp10.toNat * 10 ^ (-(exp10 + k)).toNat =
      digits * 10 ^ (exp10 + k).toNat * 10 ^ (-exp10).toNat := by
    rw [Nat.mul_assoc, Nat.mul_assoc, Nat.mul_assoc, ← Nat.pow_add, ← Nat.pow_add, ← Nat.pow_add]
    congr 2
    omega
  rw [ofDecimal_eq, ofDecimal_eq]
  unfold ofRatio
  rw [roundBits_congr (by positivity) (by positivity) hsplit]

theorem toRatio_dvd {p : Nat} (hp : 1074 ≤ p) : x.toRatio.2 ∣ 10 ^ p := by
  unfold toRatio
  by_cases hlarge : 1074 ≤ x.exponent
  · rw [if_pos hlarge]
    exact Nat.one_dvd _
  · rw [if_neg hlarge]
    have hten : (10 : Nat) ^ p = 2 ^ p * 5 ^ p := by
      rw [← Nat.mul_pow]
    rw [hten]
    exact Dvd.dvd.mul_right (Nat.pow_dvd_pow 2 (by omega)) _

-- Far enough behind the point every double is a whole number of units.
theorem exists_exact_candidate (hfinite : x.isFinite = true) (h : x.magnitude ≠ 0) {p : Nat}
    (hp : 1074 ≤ p) : ∃ d, d ≠ 0 ∧ d ∈ decimalCandidates x (-(p : Int)) ∧
      ofDecimal x.isNegative d (-(p : Int)) = x := by
  obtain ⟨k, hk⟩ := toRatio_dvd x hp
  have hden := toRatio_den_pos x
  have hpow : 0 < 10 ^ p := Nat.pow_pos (by omega)
  have hkpos : 0 < k := by
    by_contra hzero
    have : k = 0 := by omega
    rw [this, Nat.mul_zero] at hk
    omega
  have hnum := toRatio_num_pos x h
  have hsign : ¬ (0 : Int) ≤ -(p : Int) := by omega
  have hneg : (-(-(p : Int))).toNat = p := by omega
  have hpos : (-(p : Int)).toNat = 0 := by omega
  have hnear : roundHalfEven (x.toRatio.1 * 10 ^ p) x.toRatio.2 = x.toRatio.1 * k := by
    rw [hk, Nat.mul_left_comm, Nat.mul_comm]
    exact roundHalfEven_exact _ hden
  refine ⟨x.toRatio.1 * k, Nat.mul_ne_zero hnum.ne' hkpos.ne', ?_, ?_⟩
  · unfold decimalCandidates scaled
    rw [if_neg hsign, hneg]
    dsimp only
    rw [hnear]
    exact List.mem_cons_self
  · rw [ofDecimal_eq, hneg, hpos, Nat.pow_zero, Nat.mul_one]
    refine ofRatio_exact x hfinite hpow ?_
    rw [hk, Nat.mul_assoc, Nat.mul_comm k]

def ReadsBack (found : Nat × Int) : Prop :=
  found.1 ≠ 0 ∧ ofDecimal x.isNegative found.1 found.2 = x

-- The search goes on until it finds something.
theorem shortestFrom_readsBack {fuel : Nat} {exp10 : Int}
    (h : ∃ step < fuel, ∃ d ∈ decimalCandidates x (exp10 - step),
      d ≠ 0 ∧ ofDecimal x.isNegative d (exp10 - step) = x) :
    ReadsBack x (shortestFrom x fuel exp10) := by
  induction fuel generalizing exp10 with
  | zero =>
      obtain ⟨step, hstep, -⟩ := h
      omega
  | succ fuel ih =>
      rw [shortestFrom]
      cases hfind : (decimalCandidates x exp10).find? fun d =>
          ofDecimal x.isNegative d exp10 = x ∧ d ≠ 0 with
      | some d =>
          have hgood := List.find?_some hfind
          simp only [decide_eq_true_eq] at hgood
          exact ⟨hgood.2, hgood.1⟩
      | none =>
          apply ih
          obtain ⟨step, hstep, d, hd, hne, hback⟩ := h
          cases step with
          | zero =>
              rw [Int.natCast_zero, Int.sub_zero] at hd hback
              have hnone := List.find?_eq_none.mp hfind d hd
              exact absurd (decide_eq_true ⟨hback, hne⟩) hnone
          | succ step =>
              have hexp : exp10 - (step + 1 : Nat) = exp10 - 1 - step := by omega
              rw [hexp] at hd hback
              exact ⟨step, by omega, d, hd, hne, hback⟩

theorem shortest_readsBack (hfinite : x.isFinite = true) (h : x.magnitude ≠ 0) :
    ReadsBack x x.shortest := by
  unfold shortest
  apply shortestFrom_readsBack
  obtain ⟨d, hne, hmem, hback⟩ := exists_exact_candidate x hfinite h (le_refl 1074)
  have hexp : (309 : Int) - (1383 : Nat) = -(1074 : Nat) := by decide
  refine ⟨1383, by decide, d, ?_, hne, ?_⟩
  · rw [hexp]
    exact hmem
  · rw [hexp]
    exact hback

end Decimals

end Stra2us.Foundation.Binary64
