import Stra2us.Foundation.JsonLiteral
import Stra2us.Foundation.Rounding

namespace Stra2us.Foundation.Json

-- What is written for a number is a numeral that reads back as the number.

section Leading

theorem head?_natText {n : Nat} (h : 0 < n) : (natText n).head? ≠ some '0' := by
  induction n using Nat.strong_induction_on with
  | _ n ih =>
      by_cases hsmall : n < 10
      · have hdigits : natText n = [n.digitChar] := Nat.toDigits_of_lt_base hsmall
        have hall : ∀ m : Fin 10, 0 < m.val → m.val.digitChar ≠ '0' := by decide
        rw [hdigits]
        intro heq
        exact hall ⟨n, hsmall⟩ h (Option.some.inj heq)
      · have hdigits : natText n = natText (n / 10) ++ [(n % 10).digitChar] :=
          Nat.toDigits_of_base_le (by omega) (by omega)
        rw [hdigits, List.head?_append_of_ne_nil _ (natText_ne_nil _)]
        exact ih (n / 10) (by omega) (by omega)

theorem isDigit_natText (n : Nat) : ∀ c ∈ natText n, c.isDigit :=
  fun _ hc => isDigit_of_mem_natText hc

theorem isDigits_natText (n : Nat) : isDigits (natText n) :=
  isDigits_iff.mpr ⟨natText_ne_nil n, isDigit_natText n⟩

theorem isDigit_zeros (k : Nat) : ∀ c ∈ List.replicate k '0', c.isDigit := by
  intro c hc
  rw [List.eq_of_mem_replicate hc]
  decide

theorem isWhole_of_head {digits : Text} (h : ∀ c ∈ digits, c.isDigit) (hne : digits ≠ [])
    (hhead : digits.head? ≠ some '0') : isWhole digits :=
  isWhole_iff.mpr (.inr ⟨isDigits_iff.mpr ⟨hne, h⟩, hhead⟩)

theorem isWhole_natText (n : Nat) : isWhole (natText n) := by
  by_cases hzero : n = 0
  · subst hzero
    decide
  · exact isWhole_of_head (isDigit_natText n) (natText_ne_nil n) (head?_natText (by omega))

theorem digitsNat_natText (n : Nat) : digitsNat (natText n) = n :=
  Nat.ofDigitChars_ten_toDigits

theorem digitsNat_zeros_append (k n : Nat) :
    digitsNat (List.replicate k '0' ++ natText n) = n := by
  rw [digitsNat, Nat.ofDigitChars_append, Nat.ofDigitChars_replicate_zero, Nat.mul_zero]
  exact digitsNat_natText n

theorem digitsNat_append_zeros (n k : Nat) :
    digitsNat (natText n ++ List.replicate k '0') = n * 10 ^ k := by
  rw [digitsNat, Nat.ofDigitChars_append, Nat.ofDigitChars_replicate_zero, Nat.mul_comm]
  congr 1
  exact digitsNat_natText n

end Leading

theorem intLiteral_intText {n : Int} (h : (natText n.natAbs).length ≤ maxIntDigits) :
    IntLiteral (intText n) n := by
  have hread (negative : Bool) (m : Nat) (hm : (natText m).length ≤ maxIntDigits) :
      IntLiteral (signed negative (natText m)) (signedInt negative m) := by
    have hliteral := IntLiteral.numeral ⟨negative, natText m, [], [], isWhole_natText m, by simp,
      fun hne => absurd rfl hne⟩ rfl hm
    simpa [Numeral.text, Numeral.unsigned, fractionText, Numeral.toInt, digitsNat_natText]
      using hliteral
  cases n with
  | ofNat m => exact hread false m h
  | negSucc m => exact hread true (m + 1) h

section Positional

variable (negative : Bool) {d : Nat} {point : Int}

theorem floatLiteral_of {text : Text} {value : Binary64} (x : Numeral) (h : x.isInt = false)
    (htext : text = x.text) (hvalue : value = x.toFloat) : FloatLiteral text value := by
  rw [htext, hvalue]
  exact .numeral x h

-- All digits stand behind the point.
theorem floatLiteral_small (hpoint : point ≤ 0) :
    FloatLiteral (signed negative ("0.".toList ++ List.replicate (-point).toNat '0' ++ natText d))
      (.ofDecimal negative d (point - (natText d).length)) := by
  have hfraction : List.replicate (-point).toNat '0' ++ natText d ≠ [] := by
    simp [natText_ne_nil]
  have hdigits : ∀ c ∈ List.replicate (-point).toNat '0' ++ natText d, c.isDigit := by
    intro c hc
    rcases List.mem_append.mp hc with hc | hc
    · exact isDigit_zeros _ c hc
    · exact isDigit_natText d c hc
  refine floatLiteral_of ⟨negative, ['0'], _, [], by decide, hdigits, fun hne => absurd rfl hne⟩
    ?_ ?_ ?_
  · simp [Numeral.isInt, hfraction]
  · simp only [Numeral.text, Numeral.unsigned, fractionText, if_neg hfraction, List.append_nil]
    rfl
  · have hvalue : digitsNat (['0'] ++ (List.replicate (-point).toNat '0' ++ natText d)) = d :=
      digitsNat_zeros_append ((-point).toNat + 1) d
    simp only [Numeral.toFloat, hvalue, Numeral.exp10, scanExponent, Option.getD_none,
      List.length_append, List.length_replicate]
    congr 1
    push_cast
    omega

theorem digitsNat_take_append_drop (k : Nat) :
    digitsNat ((natText d).take k ++ (natText d).drop k) = d := by
  rw [List.take_append_drop]
  exact digitsNat_natText d

theorem isWhole_take (hd : 0 < d) {k : Nat} (hk : 0 < k) : isWhole ((natText d).take k) := by
  obtain ⟨first, rest, hfirst⟩ := List.exists_cons_of_ne_nil (natText_ne_nil d)
  obtain ⟨k, rfl⟩ : ∃ n, k = n + 1 := ⟨k - 1, by omega⟩
  have htake : (natText d).take (k + 1) = first :: rest.take k := by
    rw [hfirst, List.take_succ_cons]
  refine isWhole_of_head (fun c hc => isDigit_natText d c (List.mem_of_mem_take hc)) ?_ ?_
  · rw [htake]
    exact List.cons_ne_nil _ _
  · have hhead := head?_natText hd
    rw [hfirst] at hhead
    rw [htake]
    exact hhead

theorem drop_natText_ne_nil {k : Nat} (hlen : k < (natText d).length) :
    (natText d).drop k ≠ [] := by
  intro hnil
  have hle := List.drop_eq_nil_iff.mp hnil
  omega

-- The point stands among the digits.
theorem floatLiteral_pointed (hd : 0 < d) (hpoint : 0 < point)
    (hlen : point.toNat < (natText d).length) :
    FloatLiteral (signed negative ((natText d).take point.toNat ++
        '.' :: (natText d).drop point.toNat))
      (.ofDecimal negative d (point - (natText d).length)) := by
  have hfraction := drop_natText_ne_nil hlen
  refine floatLiteral_of ⟨negative, (natText d).take point.toNat, (natText d).drop point.toNat, [],
    isWhole_take hd (by omega), fun c hc => isDigit_natText d c (List.mem_of_mem_drop hc),
    fun hne => absurd rfl hne⟩ ?_ ?_ ?_
  · simp only [Numeral.isInt, hfraction, decide_false, Bool.false_and]
  · simp only [Numeral.text, Numeral.unsigned, fractionText, if_neg hfraction, List.append_nil]
  · simp only [Numeral.toFloat, digitsNat_take_append_drop, Numeral.exp10, scanExponent,
      Option.getD_none, List.length_drop]
    congr 1
    omega

-- The point and a zero stand behind the digits.
theorem floatLiteral_whole (hd : 0 < d) (hlen : ((natText d).length : Int) ≤ point) :
    FloatLiteral (signed negative (natText d ++
        List.replicate (point.toNat - (natText d).length) '0' ++ ".0".toList))
      (.ofDecimal negative d (point - (natText d).length)) := by
  have hwhole : isWhole (natText d ++ List.replicate (point.toNat - (natText d).length) '0') := by
    refine isWhole_of_head (fun c hc => ?_) (by simp [natText_ne_nil]) ?_
    · rcases List.mem_append.mp hc with hc | hc
      · exact isDigit_natText d c hc
      · exact isDigit_zeros _ c hc
    · rw [List.head?_append_of_ne_nil _ (natText_ne_nil d)]
      exact head?_natText hd
  refine floatLiteral_of ⟨negative, _, ['0'], [], hwhole, by simp, fun hne => absurd rfl hne⟩
    rfl ?_ ?_
  · simp [Numeral.text, Numeral.unsigned, fractionText]
  · have hzeros : natText d ++ List.replicate (point.toNat - (natText d).length) '0' ++ ['0'] =
        natText d ++ List.replicate (point.toNat - (natText d).length + 1) '0' := by
      rw [List.append_assoc, List.replicate_succ']
    simp only [Numeral.toFloat, hzeros, digitsNat_append_zeros, Binary64.ofDecimal_zeros,
      Numeral.exp10, scanExponent, Option.getD_none, List.length_singleton]
    congr 1
    push_cast
    omega

-- One digit in front of the point and the exponent behind.
theorem floatLiteral_scientific (hd : 0 < d) {exp10 : Int} {digits : Text} (hdigits : isDigits digits)
    (hexp : digitsNat digits = exp10.natAbs) :
    FloatLiteral (signed negative ((natText d).take 1 ++
        ((if (natText d).length = 1 then [] else '.' :: (natText d).drop 1) ++
          'e' :: ((if exp10 < 0 then '-' else '+') :: digits))))
      (.ofDecimal negative d (exp10 + 1 - (natText d).length)) := by
  have hpos : 0 < (natText d).length := List.length_pos_iff.mpr (natText_ne_nil d)
  have hsigned : exponentDigits ((if exp10 < 0 then '-' else '+') :: digits) = digits := by
    split_ifs <;> rfl
  have hexponent : isExponent ('e' :: ((if exp10 < 0 then '-' else '+') :: digits)) := by
    simp [isExponent, hsigned, hdigits]
  have hscan : (scanExponent ('e' :: ((if exp10 < 0 then '-' else '+') :: digits))).1 =
      some exp10 := by
    obtain ⟨hne, hall⟩ := isDigits_iff.mp hdigits
    have htake : takeDigits digits = (digits, []) := by
      simpa using @takeDigits_append digits [] hall (by simp)
    rw [scanExponent_marker (.inl rfl), hsigned, htake, if_neg hne, hexp]
    by_cases hsign : exp10 < 0
    · rw [if_pos hsign]
      simp only [List.head?_cons, decide_true, signedInt, ite_true]
      congr 1
      omega
    · rw [if_neg hsign]
      have hplus : ¬ some '+' = some '-' := by decide
      simp only [List.head?_cons, hplus, decide_false, signedInt, Bool.false_eq_true, ite_false]
      congr 1
      omega
  have hfraction : fractionText ((natText d).drop 1) =
      if (natText d).length = 1 then [] else '.' :: (natText d).drop 1 := by
    unfold fractionText
    by_cases hone : (natText d).length = 1
    · rw [if_pos hone, if_pos (List.drop_eq_nil_iff.mpr hone.le)]
    · rw [if_neg hone, if_neg (drop_natText_ne_nil (by omega))]
  refine floatLiteral_of ⟨negative, (natText d).take 1, (natText d).drop 1, _,
    isWhole_take hd (by omega), fun c hc => isDigit_natText d c (List.mem_of_mem_drop hc),
    fun _ => hexponent⟩ ?_ ?_ ?_
  · simp [Numeral.isInt]
  · simp only [Numeral.text, Numeral.unsigned, hfraction]
  · simp only [Numeral.toFloat, digitsNat_take_append_drop, Numeral.exp10, hscan,
      Option.getD_some, List.length_drop]
    congr 1
    omega

end Positional

section Floats

variable (x : Binary64)

theorem digitsNat_exponent (n : Nat) :
    isDigits (if (natText n).length < 2 then '0' :: natText n else natText n) ∧
      digitsNat (if (natText n).length < 2 then '0' :: natText n else natText n) = n := by
  by_cases hshort : (natText n).length < 2
  · rw [if_pos hshort]
    refine ⟨isDigits_iff.mpr ⟨List.cons_ne_nil _ _, ?_⟩, digitsNat_zeros_append 1 n⟩
    rw [List.forall_mem_cons]
    exact ⟨by decide, isDigit_natText n⟩
  · rw [if_neg hshort]
    exact ⟨isDigits_natText n, digitsNat_natText n⟩

theorem floatLiteral_positiveText (negative : Bool) {d : Nat} (hd : 0 < d) (exp10 : Int) :
    FloatLiteral (signed negative (Binary64.positiveText (natText d) ((natText d).length + exp10)))
      (.ofDecimal negative d exp10) := by
  obtain ⟨point, hpoint⟩ : ∃ point : Int, point = (natText d).length + exp10 := ⟨_, rfl⟩
  obtain rfl : exp10 = point - (natText d).length := by omega
  rw [← hpoint]
  unfold Binary64.positiveText
  by_cases hrange : -4 < point ∧ point ≤ 16
  · rw [if_pos hrange]
    by_cases hsmall : point ≤ 0
    · rw [if_pos hsmall]
      exact floatLiteral_small negative hsmall
    · rw [if_neg hsmall]
      by_cases hlen : (natText d).length ≤ point.toNat
      · rw [if_pos hlen]
        exact floatLiteral_whole negative hd (by omega)
      · rw [if_neg hlen]
        exact floatLiteral_pointed negative hd (by omega) (by omega)
  · rw [if_neg hrange]
    obtain ⟨hdigits, hvalue⟩ := digitsNat_exponent (point - 1).natAbs
    have hliteral := floatLiteral_scientific negative hd hdigits hvalue
    have hexp : point - 1 + 1 - (natText d).length = point - (natText d).length := by omega
    rw [hexp] at hliteral
    have htext : Binary64.exponentText (point - 1) = (if point - 1 < 0 then '-' else '+') ::
        (if (natText (point - 1).natAbs).length < 2 then '0' :: natText (point - 1).natAbs
          else natText (point - 1).natAbs) := by
      unfold Binary64.exponentText
      by_cases hsign : point - 1 < 0
      · rw [if_pos hsign, if_pos hsign]
        rfl
      · rw [if_neg hsign, if_neg hsign]
        rfl
    dsimp only
    rw [htext, List.append_assoc]
    exact hliteral

theorem ofSignAndBits_infinity (hfinite : x.isFinite = false) (hnan : x.isNan = false) :
    x = .infinity x.isNegative := by
  have hmagnitude : x.magnitude = Binary64.infinityBits := by
    simp only [Binary64.isFinite, Binary64.isNan, decide_eq_false_iff_not] at hfinite hnan
    omega
  rw [Binary64.infinity, ← hmagnitude, Binary64.ofSignAndBits_magnitude]

theorem floatLiteral_zero (h : x.magnitude = 0) :
    FloatLiteral (signed x.isNegative "0.0".toList) x := by
  refine floatLiteral_of ⟨x.isNegative, ['0'], ['0'], [], by decide, by simp,
    fun hne => absurd rfl hne⟩ rfl rfl ?_
  exact (Binary64.ofDecimal_zero x h _).symm

theorem digitsAndPoint_def : Binary64.digitsAndPoint = fun x =>
    let (d, exp10) := x.shortest
    let digits := natText d
    (digits, digits.length + exp10) := rfl

-- The terms stay as they are written: a comparison up to unfolding would run the search.
theorem digitsAndPoint_eq {d : Nat} {exp10 : Int} (h : x.shortest = (d, exp10)) :
    x.digitsAndPoint = (natText d, ((natText d).length : Int) + exp10) := by
  have hdef := congrFun digitsAndPoint_def x
  have hfound := congrArg (fun found : Nat × Int =>
    let (d, exp10) := found
    let digits := natText d
    (digits, (digits.length : Int) + exp10)) h
  exact hdef.trans hfound

theorem floatLiteral_text (hfinite : x.isFinite = true) (hnan : x.isNan = false) :
    FloatLiteral x.text x := by
  have hsign (text : Text) : (if x.isNegative then ['-'] else []) ++ text =
      signed x.isNegative text := by
    cases x.isNegative with
    | true => rfl
    | false => rfl
  unfold Binary64.text
  rw [if_neg (by simp [hnan]), if_neg (by simp [hfinite])]
  by_cases hzero : x.magnitude = 0
  · rw [if_pos hzero, hsign]
    exact floatLiteral_zero x hzero
  · rw [if_neg hzero, hsign]
    have hback := Binary64.shortest_readsBack x hfinite hzero
    cases hshort : x.shortest with
    | mk d exp10 =>
        rw [hshort] at hback
        have hliteral := floatLiteral_positiveText x.isNegative (Nat.pos_of_ne_zero hback.1) exp10
        rw [hback.2] at hliteral
        rw [digitsAndPoint_eq x hshort]
        exact hliteral

-- A float is read back from its text; of the NaNs there is one.
theorem floatLiteral_floatText (hnan : x.isNan = true → x = .nan) :
    FloatLiteral (floatText x) x := by
  unfold floatText
  cases hisNan : x.isNan with
  | true =>
      rw [if_pos rfl, hnan hisNan]
      exact .nan
  | false =>
      rw [if_neg (by simp)]
      cases hfinite : x.isFinite with
      | true =>
          rw [if_pos rfl]
          exact floatLiteral_text x hfinite hisNan
      | false =>
          rw [if_neg (by simp)]
          have hliteral := FloatLiteral.infinity x.isNegative
          rw [← ofSignAndBits_infinity x hfinite hisNan] at hliteral
          cases hnegative : x.isNegative with
          | true =>
              rw [hnegative] at hliteral
              exact hliteral
          | false =>
              rw [hnegative] at hliteral
              exact hliteral

end Floats

end Stra2us.Foundation.Json
