import Stra2us.Foundation.Numerals

namespace Stra2us.Foundation.Json

-- The numbers of JSON as they are spelled, and what reading a document that is one of
-- its atoms comes to.

section Spelling

def isDigits (text : Text) : Bool :=
  text ≠ [] && text.all Char.isDigit

-- No zero stands in front of another digit.
def isWhole (digits : Text) : Bool :=
  digits = ['0'] || (isDigits digits && digits.head? ≠ some '0')

def exponentDigits (text : Text) : Text :=
  match text with
  | '+' :: digits => digits
  | '-' :: digits => digits
  | digits => digits

def isExponent (text : Text) : Bool :=
  match text with
  | e :: rest => (e = 'e' || e = 'E') && isDigits (exponentDigits rest)
  | [] => false

def fractionText (fraction : Text) : Text :=
  if fraction = [] then [] else '.' :: fraction

structure Numeral where
  negative : Bool
  whole : Text
  fraction : Text
  exponent : Text
  isWhole_whole : isWhole whole
  isDigit_fraction : ∀ c ∈ fraction, c.isDigit
  isExponent_exponent : exponent ≠ [] → isExponent exponent

namespace Numeral

variable (x : Numeral)

def unsigned : Text :=
  x.whole ++ (fractionText x.fraction ++ x.exponent)

def text : Text :=
  signed x.negative x.unsigned

def isInt : Bool :=
  x.fraction = [] && x.exponent = []

def toInt : Int :=
  signedInt x.negative (digitsNat x.whole)

def exp10 : Option Int :=
  (scanExponent x.exponent).1

def toFloat : Binary64 :=
  .ofDecimal x.negative (digitsNat (x.whole ++ x.fraction)) (x.exp10.getD 0 - x.fraction.length)

end Numeral

end Spelling

section Digits

variable {digits rest : Text}

theorem isDigits_iff : isDigits digits ↔ digits ≠ [] ∧ ∀ c ∈ digits, c.isDigit := by
  simp [isDigits]

theorem isWhole_iff :
    isWhole digits ↔ digits = ['0'] ∨ isDigits digits ∧ digits.head? ≠ some '0' := by
  simp [isWhole]

theorem isDigits_of_isWhole (h : isWhole digits) : isDigits digits := by
  rcases isWhole_iff.mp h with rfl | h
  · decide
  · exact h.1

theorem takeDigits_append (h : ∀ c ∈ digits, c.isDigit)
    (hrest : ∀ c ∈ rest.head?, c.isDigit = false) : takeDigits (digits ++ rest) = (digits, rest) := by
  simp only [takeDigits, takeWhile_append_of_stop h hrest, dropWhile_append_of_stop h hrest]

theorem takeDigits_eq {text : Text} (h : takeDigits text = (digits, rest)) :
    text = digits ++ rest ∧ ∀ c ∈ digits, c.isDigit := by
  obtain ⟨rfl, rfl⟩ := Prod.mk.inj h
  exact ⟨List.takeWhile_append_dropWhile.symm, fun c hc => List.mem_takeWhile_imp hc⟩

theorem scanWhole_append (h : isWhole digits) (hrest : ∀ c ∈ rest.head?, c.isDigit = false) :
    scanWhole (digits ++ rest) = some (digits, rest) := by
  rcases isWhole_iff.mp h with rfl | ⟨hdigits, hzero⟩
  · rfl
  · obtain ⟨hne, hall⟩ := isDigits_iff.mp hdigits
    obtain ⟨first, digits, rfl⟩ := List.exists_cons_of_ne_nil hne
    have hfirst : first ≠ '0' := fun heq => hzero (by rw [heq]; rfl)
    have htake := takeDigits_append hall hrest
    rw [List.cons_append] at htake ⊢
    unfold scanWhole
    split
    · rename_i heq
      exact absurd (List.cons.inj heq).1 hfirst
    · rename_i heq
      obtain ⟨rfl, rfl⟩ := List.cons.inj heq
      rw [if_pos (hall _ (by simp)), htake]
    · rename_i heq
      cases heq

theorem scanWhole_eq {text : Text} (h : scanWhole text = some (digits, rest)) :
    text = digits ++ rest ∧ isWhole digits := by
  unfold scanWhole at h
  split at h
  · obtain ⟨rfl, rfl⟩ := Prod.mk.inj (Option.some.inj h)
    exact ⟨rfl, by decide⟩
  · rename_i first text hzero
    split at h
    · rename_i hfirst
      obtain ⟨htext, hall⟩ := takeDigits_eq (Option.some.inj h)
      refine ⟨htext, isWhole_iff.mpr (.inr ?_)⟩
      have hhead : digits.head? = some first := by
        have hfst := congrArg Prod.fst (Option.some.inj h)
        simp only [takeDigits, List.takeWhile_cons, hfirst, ite_true] at hfst
        rw [← hfst]
        rfl
      have hne : digits ≠ [] := by
        rintro rfl
        cases hhead
      refine ⟨isDigits_iff.mpr ⟨hne, hall⟩, ?_⟩
      rw [hhead]
      intro heq
      exact hzero (Option.some.inj heq)
    · cases h
  · cases h

end Digits

section Parts

variable {digits fraction exponent rest : Text}

-- What may stand behind a number.
def EndsNumber (rest : Text) : Prop :=
  ∀ c ∈ rest.head?, c.isDigit = false ∧ c ≠ '.' ∧ c ≠ 'e' ∧ c ≠ 'E'

theorem endsNumber_nil : EndsNumber [] := by
  intro c hc
  cases hc

theorem head?_exponent (h : exponent ≠ [] → isExponent exponent) :
    ∀ c ∈ exponent.head?, c = 'e' ∨ c = 'E' := by
  intro c hc
  cases exponent with
  | nil => cases hc
  | cons e digits =>
      obtain rfl := Option.some.inj hc
      have he := h (by simp)
      simp only [isExponent, Bool.and_eq_true, Bool.or_eq_true, decide_eq_true_eq] at he
      exact he.1

theorem head?_append_cases {before rest : Text} {c : Char} (hc : c ∈ (before ++ rest).head?) :
    c ∈ before.head? ∨ before = [] ∧ c ∈ rest.head? := by
  cases before with
  | nil => exact .inr ⟨rfl, hc⟩
  | cons first before => exact .inl hc

theorem scanFraction_append (h : ∀ c ∈ fraction, c.isDigit)
    (hrest : ∀ c ∈ rest.head?, c.isDigit = false ∧ c ≠ '.') :
    scanFraction (fractionText fraction ++ rest) = (fraction, rest) := by
  by_cases hnone : fraction = []
  · subst hnone
    rw [fractionText, if_pos rfl, List.nil_append]
    unfold scanFraction
    split
    · exact absurd rfl (hrest _ rfl).2
    · rfl
  · have htake := takeDigits_append h fun c hc => (hrest c hc).1
    rw [fractionText, if_neg hnone, List.cons_append]
    simp only [scanFraction, htake, if_neg hnone]

theorem scanFraction_eq {text : Text} (h : scanFraction text = (fraction, rest)) :
    text = fractionText fraction ++ rest ∧ ∀ c ∈ fraction, c.isDigit := by
  unfold scanFraction at h
  split at h
  · rename_i behind
    split at h
    · obtain ⟨rfl, rfl⟩ := Prod.mk.inj h
      exact ⟨rfl, by simp⟩
    · rename_i hne
      obtain ⟨htext, hall⟩ := takeDigits_eq h
      rw [h] at hne
      refine ⟨?_, hall⟩
      rw [fractionText, if_neg hne, htext]
      rfl
  · obtain ⟨rfl, rfl⟩ := Prod.mk.inj h
    exact ⟨rfl, by simp⟩

theorem exponentDigits_cases (text : Text) :
    (∃ digits, text = '+' :: digits) ∨ (∃ digits, text = '-' :: digits) ∨
      exponentDigits text = text ∧ text.head? ≠ some '-' ∧ text.head? ≠ some '+' := by
  unfold exponentDigits
  split
  · exact .inl ⟨_, rfl⟩
  · exact .inr (.inl ⟨_, rfl⟩)
  · rename_i hplus hminus
    refine .inr (.inr ⟨rfl, ?_, ?_⟩)
    · intro heq
      obtain ⟨digits, hdigits⟩ := List.head?_eq_some_iff.mp heq
      exact hminus digits hdigits
    · intro heq
      obtain ⟨digits, hdigits⟩ := List.head?_eq_some_iff.mp heq
      exact hplus digits hdigits

theorem exponentDigits_append {text : Text} (h : text ≠ []) (rest : Text) :
    exponentDigits (text ++ rest) = exponentDigits text ++ rest := by
  obtain ⟨digits, rfl⟩ | ⟨digits, rfl⟩ | ⟨htext, hminus, hplus⟩ := exponentDigits_cases text
  · rfl
  · rfl
  · rw [htext]
    obtain ⟨first, text, rfl⟩ := List.exists_cons_of_ne_nil h
    unfold exponentDigits
    split
    · rename_i heq
      exact absurd (congrArg some (List.cons.inj heq).1) hplus
    · rename_i heq
      exact absurd (congrArg some (List.cons.inj heq).1) hminus
    · rfl

-- The digits behind the marker and its sign make the exponent, if there are any.
theorem scanExponent_marker {e : Char} (he : e = 'e' ∨ e = 'E') (text : Text) :
    scanExponent (e :: text) =
      if (takeDigits (exponentDigits text)).1 = [] then (none, e :: text)
      else (some (signedInt (text.head? = some '-')
        (digitsNat (takeDigits (exponentDigits text)).1)), (takeDigits (exponentDigits text)).2) := by
  obtain ⟨digits, rfl⟩ | ⟨digits, rfl⟩ | ⟨htext, hminus, hplus⟩ := exponentDigits_cases text
  · simp only [scanExponent, if_pos he]
    rfl
  · simp only [scanExponent, if_pos he]
    rfl
  · have hsign : decide (text.head? = some '-') = false := decide_eq_false hminus
    rw [htext, hsign]
    simp only [scanExponent, if_pos he]
    split
    · exact absurd rfl hplus
    · exact absurd rfl hminus
    · rfl

theorem scanExponent_append (h : exponent ≠ [] → isExponent exponent) (hrest : EndsNumber rest) :
    scanExponent (exponent ++ rest) = ((scanExponent exponent).1, rest) ∧
      ((scanExponent exponent).1 = none ↔ exponent = []) := by
  cases exponent with
  | nil =>
      refine ⟨?_, by simp [scanExponent]⟩
      cases rest with
      | nil => rfl
      | cons c rest =>
          have hmarker : ¬ (c = 'e' ∨ c = 'E') := by
            rintro (hc | hc)
            · exact (hrest c rfl).2.2.1 hc
            · exact (hrest c rfl).2.2.2 hc
          simp only [List.nil_append, scanExponent, if_neg hmarker]
  | cons e text =>
      have hexponent := h (by simp)
      simp only [isExponent, Bool.and_eq_true, Bool.or_eq_true, decide_eq_true_eq] at hexponent
      obtain ⟨he, hdigits⟩ := hexponent
      obtain ⟨hne, hall⟩ := isDigits_iff.mp hdigits
      have htext : text ≠ [] := by
        rintro rfl
        exact hne rfl
      have htake := takeDigits_append hall fun c hc => (hrest c hc).1
      have halone := @takeDigits_append _ [] hall (by simp)
      have hhead : (text ++ rest).head? = text.head? := by
        rw [List.head?_append_of_ne_nil _ htext]
      rw [List.append_nil] at halone
      rw [List.cons_append, scanExponent_marker he, scanExponent_marker he,
        exponentDigits_append htext, htake, halone, hhead, if_neg hne, if_neg hne]
      simp

theorem exponentDigits_of_digits (h : isDigits digits) : exponentDigits digits = digits := by
  have hall := (isDigits_iff.mp h).2
  obtain ⟨rest, rfl⟩ | ⟨rest, rfl⟩ | ⟨heq, -, -⟩ := exponentDigits_cases digits
  · exact absurd (hall '+' (by simp)) (by decide)
  · exact absurd (hall '-' (by simp)) (by decide)
  · exact heq

theorem exists_exponentDigits {text : Text} (hdigits : isDigits digits)
    (h : exponentDigits text = digits ++ rest) :
    ∃ spelled, text = spelled ++ rest ∧ exponentDigits spelled = digits := by
  obtain ⟨behind, rfl⟩ | ⟨behind, rfl⟩ | ⟨heq, -, -⟩ := exponentDigits_cases text
  · refine ⟨'+' :: digits, ?_, rfl⟩
    change behind = digits ++ rest at h
    rw [h, List.cons_append]
  · refine ⟨'-' :: digits, ?_, rfl⟩
    change behind = digits ++ rest at h
    rw [h, List.cons_append]
  · exact ⟨digits, heq.symm.trans h, exponentDigits_of_digits hdigits⟩

theorem scanExponent_eq {text : Text} {exp10 : Option Int} (h : scanExponent text = (exp10, rest)) :
    ∃ exponent, text = exponent ++ rest ∧ (exponent ≠ [] → isExponent exponent) := by
  have hnone : (none, text) = (exp10, rest) → ∃ exponent, text = exponent ++ rest ∧
      (exponent ≠ [] → isExponent exponent) := by
    intro heq
    obtain ⟨-, rfl⟩ := Prod.mk.inj heq
    exact ⟨[], rfl, fun hne => absurd rfl hne⟩
  cases text with
  | nil => exact hnone h
  | cons e text =>
      by_cases he : e = 'e' ∨ e = 'E'
      · rw [scanExponent_marker he] at h
        split at h
        · exact hnone h
        · rename_i hne
          obtain ⟨-, hrest⟩ := Prod.mk.inj h
          obtain ⟨hsplit, hall⟩ := @takeDigits_eq _ rest (exponentDigits text)
            (by rw [← hrest])
          have hdigits := isDigits_iff.mpr ⟨hne, hall⟩
          obtain ⟨spelled, htext, hspelled⟩ := exists_exponentDigits hdigits hsplit
          refine ⟨e :: spelled, by rw [htext, List.cons_append], fun _ => ?_⟩
          simp only [isExponent, hspelled, hdigits, Bool.and_true, Bool.or_eq_true,
            decide_eq_true_eq]
          exact he
      · simp only [scanExponent, if_neg he] at h
        exact hnone h

end Parts

namespace Numeral

variable (x : Numeral) {rest : Text}

theorem head?_unsigned : ∃ c text, x.unsigned = c :: text ∧ c.isDigit := by
  obtain ⟨hne, hall⟩ := isDigits_iff.mp (isDigits_of_isWhole x.isWhole_whole)
  obtain ⟨first, digits, hwhole⟩ := List.exists_cons_of_ne_nil hne
  refine ⟨first, digits ++ (fractionText x.fraction ++ x.exponent), ?_, hall first (by simp [hwhole])⟩
  rw [unsigned, hwhole, List.cons_append]

theorem head?_exponent_append (hrest : EndsNumber rest) :
    ∀ c ∈ (x.exponent ++ rest).head?, c.isDigit = false ∧ c ≠ '.' := by
  intro c hc
  rcases head?_append_cases hc with hc | ⟨-, hc⟩
  · rcases head?_exponent x.isExponent_exponent c hc with rfl | rfl
    · decide
    · decide
  · exact ⟨(hrest c hc).1, (hrest c hc).2.1⟩

theorem head?_fraction_append (hrest : EndsNumber rest) :
    ∀ c ∈ (fractionText x.fraction ++ (x.exponent ++ rest)).head?, c.isDigit = false := by
  intro c hc
  rcases head?_append_cases hc with hc | ⟨-, hc⟩
  · by_cases hnone : x.fraction = []
    · rw [fractionText, if_pos hnone] at hc
      cases hc
    · rw [fractionText, if_neg hnone] at hc
      obtain rfl := Option.some.inj hc
      decide
  · exact (x.head?_exponent_append hrest c hc).1

theorem exp10_eq_none : x.exp10 = none ↔ x.exponent = [] :=
  (scanExponent_append x.isExponent_exponent endsNumber_nil).2

-- The number is read to its end.
theorem scanNumber_append (hrest : EndsNumber rest) :
    scanNumber x.negative (x.unsigned ++ rest) =
      if x.isInt then
        if x.whole.length ≤ maxIntDigits then .ok (.int x.toInt, rest) else .error .digits
      else .ok (.float x.toFloat, rest) := by
  have hwhole := scanWhole_append x.isWhole_whole (x.head?_fraction_append hrest)
  have hfraction := scanFraction_append x.isDigit_fraction (x.head?_exponent_append hrest)
  have hexponent := (scanExponent_append x.isExponent_exponent hrest).1
  have hsplit : x.unsigned ++ rest =
      x.whole ++ (fractionText x.fraction ++ (x.exponent ++ rest)) := by
    simp [unsigned]
  have hint : (x.fraction = [] ∧ (scanExponent x.exponent).1 = none) ↔ x.isInt := by
    have hnone := x.exp10_eq_none
    unfold exp10 at hnone
    simp [isInt, hnone]
  simp only [scanNumber, hsplit, hwhole, hfraction, hexponent, hint]
  rfl

theorem mem_exponent {c : Char} (h : c ∈ x.exponent) :
    c.isDigit ∨ c = 'e' ∨ c = 'E' ∨ c = '+' ∨ c = '-' := by
  have hshape := x.isExponent_exponent (List.ne_nil_of_mem h)
  cases hexponent : x.exponent with
  | nil =>
      rw [hexponent] at h
      cases h
  | cons e text =>
      rw [hexponent] at h hshape
      simp only [isExponent, Bool.and_eq_true, Bool.or_eq_true, decide_eq_true_eq] at hshape
      obtain ⟨he, hdigits⟩ := hshape
      have hall := (isDigits_iff.mp hdigits).2
      rcases List.mem_cons.mp h with rfl | hmem
      · tauto
      · obtain ⟨digits, rfl⟩ | ⟨digits, rfl⟩ | ⟨htext, -, -⟩ := exponentDigits_cases text
        · rcases List.mem_cons.mp hmem with rfl | hmem
          · simp
          · exact .inl (hall c hmem)
        · rcases List.mem_cons.mp hmem with rfl | hmem
          · simp
          · exact .inl (hall c hmem)
        · exact .inl (hall c (by rw [htext]; exact hmem))

theorem mem_fractionText {c : Char} (h : c ∈ fractionText x.fraction) : c.isDigit ∨ c = '.' := by
  unfold fractionText at h
  split at h
  · cases h
  · rcases List.mem_cons.mp h with rfl | h
    · exact .inr rfl
    · exact .inl (x.isDigit_fraction c h)

theorem mem_text {c : Char} (h : c ∈ x.text) :
    c.isDigit ∨ c = 'e' ∨ c = 'E' ∨ c = '+' ∨ c = '-' ∨ c = '.' := by
  rcases mem_signed h with rfl | h
  · simp
  · simp only [unsigned, List.mem_append] at h
    rcases h with h | h | h
    · exact .inl ((isDigits_iff.mp (isDigits_of_isWhole x.isWhole_whole)).2 c h)
    · have := x.mem_fractionText h
      tauto
    · have := x.mem_exponent h
      tauto

theorem text_visible : ∀ c ∈ x.text, 32 < c.toNat ∧ c.toNat < 127 := by
  intro c hc
  rcases x.mem_text hc with hdigit | rfl | rfl | rfl | rfl | rfl
  · have hrange := isDigit_range hdigit
    omega
  all_goals decide

theorem underscore_notMem_text : '_' ∉ x.text := by
  intro h
  have hcases := x.mem_text h
  revert hcases
  decide

end Numeral

-- What is read as a number is spelled as one.
theorem exists_numeral {negative : Bool} {text rest : Text} {value : Value}
    (h : scanNumber negative text = .ok (value, rest)) :
    ∃ x : Numeral, x.negative = negative ∧ text = x.unsigned ++ rest := by
  unfold scanNumber at h
  split at h
  · cases h
  · rename_i whole behind hwhole
    obtain ⟨htext, hwholeOk⟩ := scanWhole_eq hwhole
    obtain ⟨fraction, behindFraction, hscan⟩ :
        ∃ fraction after, scanFraction behind = (fraction, after) := ⟨_, _, rfl⟩
    obtain ⟨hfractionSplit, hfraction⟩ := scanFraction_eq hscan
    obtain ⟨exp10, after, hscanExponent⟩ :
        ∃ exp10 after, scanExponent behindFraction = (exp10, after) := ⟨_, _, rfl⟩
    obtain ⟨exponent, hexponentSplit, hexponent⟩ := scanExponent_eq hscanExponent
    have hrest : after = rest := by
      simp only [hscan, hscanExponent] at h
      split at h
      · split at h
        · exact (Prod.mk.inj (Except.ok.inj h)).2
        · cases h
      · exact (Prod.mk.inj (Except.ok.inj h)).2
    refine ⟨⟨negative, whole, fraction, exponent, hwholeOk, hfraction, hexponent⟩, rfl, ?_⟩
    rw [htext, hfractionSplit, hexponentSplit, hrest]
    simp [Numeral.unsigned]

section Atoms

inductive IntLiteral : Text → Int → Prop
  | numeral (x : Numeral) (h : x.isInt) (hlen : x.whole.length ≤ maxIntDigits) :
      IntLiteral x.text x.toInt

inductive FloatLiteral : Text → Binary64 → Prop
  | numeral (x : Numeral) (h : x.isInt = false) : FloatLiteral x.text x.toFloat
  | nan : FloatLiteral "NaN".toList .nan
  | infinity (negative : Bool) :
      FloatLiteral (signed negative "Infinity".toList) (.infinity negative)

def boolText (b : Bool) : Text :=
  if b then "true".toList else "false".toList

-- What a value was read from, with what was left behind it.
inductive Scans (text rest : Text) : Value → Prop
  | str {body : Text} {value : Value} (htext : text = '"' :: body)
      (h : scanString body = .ok (value, rest)) : Scans text rest value
  | dict (pairs : List (Value × Value)) : Scans text rest (.dict pairs)
  | list (items : List Value) : Scans text rest (.list items)
  | none : Scans text rest .none
  | bool (b : Bool) (htext : text = boolText b ++ rest) : Scans text rest (.bool b)
  | float {body : Text} {x : Binary64} (htext : text = body ++ rest) (h : FloatLiteral body x) :
      Scans text rest (.float x)
  | int {body : Text} {n : Int} (htext : text = body ++ rest) (h : IntLiteral body n) :
      Scans text rest (.int n)

variable {inner : Option (Text → Except Error (Value × Text))} {text rest : Text} {value : Value}

theorem scans_number {negative : Bool} (h : scanNumber negative text = .ok (value, rest))
    (hrest : EndsNumber rest) : Scans (signed negative text) rest value := by
  obtain ⟨x, rfl, htext⟩ := exists_numeral h
  have hsigned : signed x.negative text = x.text ++ rest := by
    rw [htext, Numeral.text]
    cases x.negative with
    | true => rfl
    | false => rfl
  rw [htext, x.scanNumber_append hrest] at h
  split at h
  · rename_i hint
    split at h
    · rename_i hlen
      obtain ⟨rfl, -⟩ := Prod.mk.inj (Except.ok.inj h)
      exact .int hsigned (.numeral x hint hlen)
    · cases h
  · rename_i hint
    obtain ⟨rfl, -⟩ := Prod.mk.inj (Except.ok.inj h)
    exact .float hsigned (.numeral x (by simpa using hint))

theorem scanArray_list {inner : Text → Except Error (Value × Text)}
    (h : scanArray inner text = .ok (value, rest)) : ∃ items, value = .list items := by
  unfold scanArray at h
  split at h
  · exact ⟨[], (Prod.mk.inj (Except.ok.inj h)).1.symm⟩
  · cases hitems : scanItems inner ((skipWs text).length + 1) (skipWs text) with
    | error e =>
        rw [hitems] at h
        cases h
    | ok found =>
        rw [hitems] at h
        exact ⟨found.1, (Prod.mk.inj (Except.ok.inj h)).1.symm⟩

theorem scanObject_dict {inner : Text → Except Error (Value × Text)}
    (h : scanObject inner text = .ok (value, rest)) : ∃ pairs, value = .dict pairs := by
  unfold scanObject at h
  split at h
  · exact ⟨[], (Prod.mk.inj (Except.ok.inj h)).1.symm⟩
  · cases hpairs : scanMembers inner ((skipWs text).length + 1) [] (skipWs text) with
    | error e =>
        rw [hpairs] at h
        cases h
    | ok found =>
        rw [hpairs] at h
        exact ⟨found.1, (Prod.mk.inj (Except.ok.inj h)).1.symm⟩

theorem scans_head (h : scanHead inner text = .ok (value, rest)) (hrest : EndsNumber rest) :
    Scans text rest value := by
  unfold scanHead at h
  split at h
  · exact .str rfl h
  · split at h
    · obtain ⟨pairs, rfl⟩ := scanObject_dict h
      exact .dict pairs
    · cases h
  · split at h
    · obtain ⟨items, rfl⟩ := scanArray_list h
      exact .list items
    · cases h
  · obtain ⟨rfl, rfl⟩ := Prod.mk.inj (Except.ok.inj h)
    exact .none
  · obtain ⟨rfl, rfl⟩ := Prod.mk.inj (Except.ok.inj h)
    exact .bool true rfl
  · obtain ⟨rfl, rfl⟩ := Prod.mk.inj (Except.ok.inj h)
    exact .bool false rfl
  · obtain ⟨rfl, rfl⟩ := Prod.mk.inj (Except.ok.inj h)
    exact .float rfl .nan
  · obtain ⟨rfl, rfl⟩ := Prod.mk.inj (Except.ok.inj h)
    exact .float rfl (.infinity false)
  · obtain ⟨rfl, rfl⟩ := Prod.mk.inj (Except.ok.inj h)
    exact .float rfl (.infinity true)
  · exact scans_number h hrest
  · exact scans_number h hrest

theorem scanHead_digit {c : Char} (hc : c.isDigit) (text : Text) :
    scanHead inner (c :: text) = scanNumber false (c :: text) := by
  unfold scanHead
  split
  all_goals first
    | rfl
    | (rename_i heq
       obtain ⟨rfl, -⟩ := List.cons.inj heq
       exact absurd hc (by decide))

theorem scanHead_numeral (x : Numeral) (rest : Text) :
    scanHead inner (x.text ++ rest) = scanNumber x.negative (x.unsigned ++ rest) := by
  obtain ⟨c, text, hunsigned, hdigit⟩ := x.head?_unsigned
  rw [Numeral.text, hunsigned]
  cases x.negative with
  | false => exact scanHead_digit hdigit _
  | true =>
      have hletter := ne_of_isDigit hdigit (show 'I'.isDigit = false by decide)
      change scanHead inner ('-' :: (c :: (text ++ rest))) = scanNumber true (c :: (text ++ rest))
      unfold scanHead
      split
      all_goals first
        | rfl
        | simp_all

theorem scanHead_int {body : Text} {n : Int} (h : IntLiteral body n) (hrest : EndsNumber rest) :
    scanHead inner (body ++ rest) = .ok (.int n, rest) := by
  cases h with
  | numeral x hint hlen =>
      rw [scanHead_numeral, x.scanNumber_append hrest, if_pos hint, if_pos hlen]

theorem scanHead_float {body : Text} {x : Binary64} (h : FloatLiteral body x)
    (hrest : EndsNumber rest) : scanHead inner (body ++ rest) = .ok (.float x, rest) := by
  cases h with
  | numeral x hint =>
      rw [scanHead_numeral, x.scanNumber_append hrest, if_neg (by simp [hint])]
  | nan => rfl
  | infinity negative =>
      cases negative with
      | false => rfl
      | true => rfl

theorem scanHead_bool (b : Bool) (rest : Text) :
    scanHead inner (boolText b ++ rest) = .ok (.bool b, rest) := by
  cases b with
  | false => rfl
  | true => rfl

end Atoms

section Visible

def Visible (text : Text) : Prop :=
  text ≠ [] ∧ ∀ c ∈ text, 32 < c.toNat ∧ c.toNat < 127

theorem visible_of_all {text : Text} (hne : text ≠ [])
    (h : text.all fun c => 32 < c.toNat && c.toNat < 127) : Visible text := by
  refine ⟨hne, fun c hc => ?_⟩
  simpa using List.all_eq_true.mp h c hc

theorem Numeral.visible (x : Numeral) : Visible x.text := by
  refine ⟨?_, x.text_visible⟩
  obtain ⟨c, text, hunsigned, -⟩ := x.head?_unsigned
  rw [Numeral.text, hunsigned]
  cases x.negative with
  | false => exact List.cons_ne_nil _ _
  | true => exact List.cons_ne_nil _ _

theorem IntLiteral.visible {text : Text} {n : Int} (h : IntLiteral text n) : Visible text := by
  cases h with
  | numeral x _ _ => exact x.visible

theorem FloatLiteral.visible {text : Text} {value : Binary64} (h : FloatLiteral text value) :
    Visible text := by
  cases h with
  | numeral x _ => exact x.visible
  | nan => exact visible_of_all (by decide) (by decide)
  | infinity negative =>
      cases negative with
      | false => exact visible_of_all (by decide) (by decide)
      | true => exact visible_of_all (by decide) (by decide)

theorem visible_boolText (b : Bool) : Visible (boolText b) := by
  cases b with
  | false => exact visible_of_all (by decide) (by decide)
  | true => exact visible_of_all (by decide) (by decide)

end Visible

section Documents

variable {depth : Nat} {text : Text} {value : Value}

-- The text with nothing but white space around it.
def Padded (body text : Text) : Prop :=
  ∃ before after, (∀ c ∈ before, isWs c) ∧ (∀ c ∈ after, isWs c) ∧ text = before ++ body ++ after

theorem endsNumber_ws {after : Text} (h : ∀ c ∈ after, isWs c) : EndsNumber after := by
  intro c hc
  have hws := h c (List.mem_of_head? hc)
  simp only [isWs, Bool.or_eq_true, decide_eq_true_eq] at hws
  rcases hws with ((rfl | rfl) | rfl) | rfl
  all_goals decide

theorem loads_eq (h : text.head? ≠ some '\uFEFF') :
    loads depth text = (scanOnce depth (skipWs text)).bind fun found =>
      if skipWs found.2 = [] then .ok found.1 else .error .value := by
  unfold loads
  split
  · exact absurd rfl h
  · rfl

theorem scanOnce_head (depth : Nat) : ∃ inner, scanOnce depth = scanHead inner := by
  cases depth with
  | zero => exact ⟨_, rfl⟩
  | succ depth => exact ⟨_, rfl⟩

-- A document is read off the text between its white space.
theorem loads_scans (h : loads depth text = .ok value) :
    ∃ before body after, (∀ c ∈ before, isWs c) ∧ (∀ c ∈ after, isWs c) ∧
      text = before ++ body ∧ Scans body after value := by
  have hmark : text.head? ≠ some '\uFEFF' := by
    intro hhead
    obtain ⟨rest, rfl⟩ := List.head?_eq_some_iff.mp hhead
    cases h
  obtain ⟨inner, hinner⟩ := scanOnce_head depth
  rw [loads_eq hmark, hinner] at h
  cases hscan : scanHead inner (skipWs text) with
  | error e =>
      rw [hscan] at h
      cases h
  | ok found =>
      obtain ⟨value', after⟩ := found
      rw [hscan] at h
      change (if skipWs after = [] then Except.ok value' else Except.error Error.value) =
        Except.ok value at h
      split at h
      · rename_i hafter
        obtain rfl := Except.ok.inj h
        have hws : ∀ c ∈ after, isWs c := List.dropWhile_eq_nil_iff.mp hafter
        refine ⟨text.takeWhile isWs, skipWs text, after, fun c hc => List.mem_takeWhile_imp hc, hws,
          List.takeWhile_append_dropWhile.symm, scans_head hscan (endsNumber_ws hws)⟩
      · cases h

theorem loads_padded {body : Text} (hbody : Padded body text) (hvisible : Visible body)
    (hscan : ∀ inner after, (∀ c ∈ after, isWs c) →
      scanHead inner (body ++ after) = .ok (value, after)) : loads depth text = .ok value := by
  obtain ⟨before, after, hbefore, hafter, rfl⟩ := hbody
  obtain ⟨c, rest, rfl⟩ := List.exists_cons_of_ne_nil hvisible.1
  have hrange := hvisible.2 c (by simp)
  have hc : isWs c = false := by
    simp only [isWs, Bool.or_eq_false_iff, decide_eq_false_iff_not]
    refine ⟨⟨⟨?_, ?_⟩, ?_⟩, ?_⟩
    all_goals
      rintro rfl
      exact absurd hrange (by decide)
  have hcMark : c ≠ '\uFEFF' := by
    rintro rfl
    exact absurd hrange (by decide)
  have hmark : (before ++ c :: rest ++ after).head? ≠ some '\uFEFF' := by
    cases before with
    | nil =>
        intro hsome
        exact hcMark (Option.some.inj hsome)
    | cons first before =>
        intro hsome
        have hfirst := hbefore first (by simp)
        rw [Option.some.inj hsome] at hfirst
        exact absurd hfirst (by decide)
  have hskip : skipWs (before ++ c :: rest ++ after) = c :: rest ++ after := by
    rw [List.append_assoc]
    apply dropWhile_append_of_stop hbefore
    intro d hd
    rw [← Option.some.inj hd]
    exact hc
  obtain ⟨inner, hinner⟩ := scanOnce_head depth
  rw [loads_eq hmark, hinner, hskip, hscan inner after hafter]
  have hend : skipWs after = [] := List.dropWhile_eq_nil_iff.mpr hafter
  change (if skipWs after = [] then Except.ok value else Except.error Error.value) = Except.ok value
  rw [if_pos hend]

theorem scanString_eq {body rest : Text} (h : scanString body = .ok (value, rest)) :
    ∃ units, scanUnits (body.length + 1) body = .ok (units, rest) ∧ value = stringOfUnits units := by
  unfold scanString at h
  cases hunits : scanUnits (body.length + 1) body with
  | error e =>
      rw [hunits] at h
      cases h
  | ok found =>
      rw [hunits] at h
      obtain ⟨rfl, rfl⟩ := Prod.mk.inj (Except.ok.inj h)
      exact ⟨found.1, rfl, rfl⟩

theorem stringOfUnits_cases (units : List Nat) :
    stringOfUnits units = .surrogates units ∨ stringOfUnits units = .str (units.map Char.ofNat) := by
  unfold stringOfUnits
  split
  · exact .inl rfl
  · exact .inr rfl

theorem padded_of_scans {before body after tail : Text} (hbefore : ∀ c ∈ before, isWs c)
    (hafter : ∀ c ∈ after, isWs c) (hbody : body = tail ++ after) :
    Padded tail (before ++ body) :=
  ⟨before, after, hbefore, hafter, by rw [hbody, List.append_assoc]⟩

theorem scanString_kind {body rest : Text} (h : scanString body = .ok (value, rest)) :
    (∃ units, value = .surrogates units) ∨ ∃ text, value = .str text := by
  obtain ⟨units, -, rfl⟩ := scanString_eq h
  rcases stringOfUnits_cases units with hunits | hunits
  · exact .inl ⟨_, hunits⟩
  · exact .inr ⟨_, hunits⟩

theorem loads_int_iff {n : Int} :
    loads depth text = .ok (.int n) ↔ ∃ body, Padded body text ∧ IntLiteral body n := by
  constructor
  · intro h
    obtain ⟨before, body, after, hbefore, hafter, rfl, hscans⟩ := loads_scans h
    cases hscans with
    | str htext hstring => rcases scanString_kind hstring with ⟨_, h⟩ | ⟨_, h⟩ <;> cases h
    | int htext hliteral => exact ⟨_, padded_of_scans hbefore hafter htext, hliteral⟩
  · rintro ⟨body, hpadded, hliteral⟩
    apply loads_padded hpadded hliteral.visible
    intro inner after hafter
    exact scanHead_int hliteral (endsNumber_ws hafter)

theorem loads_float_iff {x : Binary64} :
    loads depth text = .ok (.float x) ↔ ∃ body, Padded body text ∧ FloatLiteral body x := by
  constructor
  · intro h
    obtain ⟨before, body, after, hbefore, hafter, rfl, hscans⟩ := loads_scans h
    cases hscans with
    | str htext hstring => rcases scanString_kind hstring with ⟨_, h⟩ | ⟨_, h⟩ <;> cases h
    | float htext hliteral => exact ⟨_, padded_of_scans hbefore hafter htext, hliteral⟩
  · rintro ⟨body, hpadded, hliteral⟩
    apply loads_padded hpadded hliteral.visible
    intro inner after hafter
    exact scanHead_float hliteral (endsNumber_ws hafter)

theorem loads_bool_iff {b : Bool} :
    loads depth text = .ok (.bool b) ↔ Padded (boolText b) text := by
  constructor
  · intro h
    obtain ⟨before, body, after, hbefore, hafter, rfl, hscans⟩ := loads_scans h
    cases hscans with
    | str htext hstring => rcases scanString_kind hstring with ⟨_, h⟩ | ⟨_, h⟩ <;> cases h
    | bool _ htext => exact padded_of_scans hbefore hafter htext
  · intro hpadded
    apply loads_padded hpadded (visible_boolText b)
    intro inner after _
    exact scanHead_bool b after

theorem hex4_length {body rest : Text} {unit : Nat} (h : hex4 body = some (unit, rest)) :
    rest.length + 4 = body.length := by
  unfold hex4 at h
  split at h
  · rename_i a b c d behind
    simp only [Option.bind_eq_bind, Option.bind_eq_some_iff] at h
    obtain ⟨_, -, _, -, _, -, _, -, hunit⟩ := h
    obtain ⟨-, rfl⟩ := Prod.mk.inj (Option.some.inj hunit)
    rfl
  · cases h

theorem scanEscapedUnit_length {body rest : Text} {unit : Nat}
    (h : scanEscapedUnit body = some (unit, rest)) : rest.length ≤ body.length := by
  unfold scanEscapedUnit at h
  obtain ⟨found, hfound, h⟩ := Option.bind_eq_some_iff.mp h
  have hlen := hex4_length hfound
  dsimp only at h
  split at h
  · split at h
    · rename_i after htail
      split at h
      · rename_i low behind hlow
        have hlowLen := hex4_length hlow
        rw [htail] at hlen
        simp only [List.length_cons] at hlen
        split at h
        · obtain ⟨-, rfl⟩ := Prod.mk.inj (Option.some.inj h)
          omega
        · obtain ⟨-, rfl⟩ := Prod.mk.inj (Option.some.inj h)
          simp only [htail, List.length_cons]
          omega
      · obtain ⟨-, rfl⟩ := Prod.mk.inj (Option.some.inj h)
        omega
    · obtain ⟨-, rfl⟩ := Prod.mk.inj (Option.some.inj h)
      omega
  · obtain ⟨-, rfl⟩ := Prod.mk.inj (Option.some.inj h)
    omega

theorem scanned_cons {scan : Except Error (List Nat × Text)} {unit : Nat} {units : List Nat}
    {rest : Text} (h : (scan.bind fun found => .ok (unit :: found.1, found.2)) = .ok (units, rest)) :
    ∃ behind, scan = .ok (behind, rest) ∧ units = unit :: behind := by
  cases scan with
  | error e => cases h
  | ok found =>
      obtain ⟨rfl, rfl⟩ := Prod.mk.inj (Except.ok.inj h)
      exact ⟨found.1, rfl, rfl⟩

-- A string comes with its quotes, so that it is longer than what it stands for.
theorem scanUnits_length {fuel : Nat} {body rest : Text} {units : List Nat}
    (h : scanUnits fuel body = .ok (units, rest)) : units.length + 1 + rest.length ≤ body.length := by
  fun_induction scanUnits fuel body generalizing units with
  | case1 => cases h
  | case2 => cases h
  | case3 =>
      obtain ⟨rfl, rfl⟩ := Prod.mk.inj (Except.ok.inj h)
      simp only [List.length_cons, List.length_nil]
      omega
  | case4 => cases h
  | case5 _ _ _ _ hunit ih =>
      obtain ⟨behind, hscan, rfl⟩ := scanned_cons h
      have hlen := ih hscan
      have hshort := scanEscapedUnit_length hunit
      simp only [List.length_cons]
      omega
  | case6 => cases h
  | case7 _ _ _ _ _ _ ih =>
      obtain ⟨behind, hscan, rfl⟩ := scanned_cons h
      have hlen := ih hscan
      simp only [List.length_cons]
      omega
  | case8 => cases h
  | case9 _ _ _ _ _ _ _ ih =>
      obtain ⟨behind, hscan, rfl⟩ := scanned_cons h
      have hlen := ih hscan
      simp only [List.length_cons]
      omega

theorem loads_ne_self : loads depth text ≠ .ok (.str text) := by
  intro h
  obtain ⟨before, body, after, hbefore, hafter, htext, hscans⟩ := loads_scans h
  cases hscans with
  | str hquote hstring =>
      obtain ⟨units, hunits, hvalue⟩ := scanString_eq hstring
      rcases stringOfUnits_cases units with hcases | hcases
      · rw [hcases] at hvalue
        cases hvalue
      · rw [hcases] at hvalue
        have hlen := scanUnits_length hunits
        have hsame := congrArg List.length (Value.str.inj hvalue)
        rw [List.length_map] at hsame
        have htotal := congrArg List.length htext
        rw [List.length_append, hquote, List.length_cons] at htotal
        omega

end Documents

section Conversions

variable {text : Text}

theorem isAsciiSpace_of_isWs {c : Char} (h : isWs c) : isAsciiSpace c := by
  simp only [isWs, Bool.or_eq_true, decide_eq_true_eq] at h
  rcases h with ((rfl | rfl) | rfl) | rfl
  all_goals decide

theorem isSpace_of_isWs {c : Char} (h : isWs c) : isSpace c := by
  simp only [isWs, Bool.or_eq_true, decide_eq_true_eq] at h
  rcases h with ((rfl | rfl) | rfl) | rfl
  all_goals decide

theorem Padded.parseInt {body : Text} {n : Int} (hpadded : Padded body text)
    (h : IntLiteral body n) : Foundation.parseInt text = some n := by
  obtain ⟨before, after, hbefore, hafter, rfl⟩ := hpadded
  cases h with
  | numeral x hint hlen =>
      obtain ⟨hne, hall⟩ := isDigits_iff.mp (isDigits_of_isWhole x.isWhole_whole)
      simp only [Numeral.isInt, Bool.and_eq_true, decide_eq_true_eq] at hint
      have htext : x.text = signed x.negative x.whole := by
        simp [Numeral.text, Numeral.unsigned, fractionText, hint.1, hint.2]
      rw [htext, parseInt_around x.negative (fun c hc => isAsciiSpace_of_isWs (hbefore c hc))
        (fun c hc => isAsciiSpace_of_isWs (hafter c hc)) hne hall, if_pos hlen]
      rfl

theorem Padded.numeralText {body : Text} (hpadded : Padded body text) (hvisible : Visible body) :
    Foundation.numeralText text = body := by
  obtain ⟨before, after, hbefore, hafter, rfl⟩ := hpadded
  exact numeralText_around (fun c hc => isAsciiSpace_of_isWs (hbefore c hc))
    (fun c hc => isAsciiSpace_of_isWs (hafter c hc)) hvisible.2

theorem dropUnderscores_of_notMem {before : Char} (hbefore : before ≠ '_') (h : '_' ∉ text) :
    dropUnderscores before text = some text := by
  induction text generalizing before with
  | nil => rw [dropUnderscores, if_neg hbefore]
  | cons c rest ih =>
      have hc : c ≠ '_' := fun heq => h (by simp [heq])
      have hrest := ih hc fun hmem => h (List.mem_cons_of_mem _ hmem)
      rw [dropUnderscores, if_neg hc, if_neg (fun hand => hbefore hand.1), hrest]
      rfl

theorem scanPoint_append {fraction rest : Text} (h : ∀ c ∈ fraction, c.isDigit)
    (hrest : ∀ c ∈ rest.head?, c.isDigit = false ∧ c ≠ '.') :
    scanPoint (fractionText fraction ++ rest) = (fraction, rest) := by
  by_cases hnone : fraction = []
  · subst hnone
    rw [fractionText, if_pos rfl, List.nil_append]
    unfold scanPoint
    split
    · exact absurd rfl (hrest _ rfl).2
    · rfl
  · rw [fractionText, if_neg hnone, List.cons_append]
    exact takeDigits_append h fun c hc => (hrest c hc).1

theorem Numeral.decimalFloat (x : Numeral) :
    Foundation.decimalFloat x.negative x.unsigned = some x.toFloat := by
  have htake := takeDigits_append (isDigits_iff.mp (isDigits_of_isWhole x.isWhole_whole)).2
    (x.head?_fraction_append endsNumber_nil)
  have hpoint := scanPoint_append x.isDigit_fraction (x.head?_exponent_append endsNumber_nil)
  have hexponent := (scanExponent_append x.isExponent_exponent endsNumber_nil).1
  have hne := (isDigits_iff.mp (isDigits_of_isWhole x.isWhole_whole)).1
  rw [List.append_nil] at htake hpoint hexponent
  change scanExponent x.exponent = (x.exp10, []) at hexponent
  simp only [Foundation.decimalFloat, Numeral.unsigned, htake, hpoint, hexponent]
  rw [if_pos ⟨by simp [hne], trivial⟩]
  rfl

theorem toLower_of_isDigit {c : Char} (h : c.isDigit) : c.toLower = c := by
  have hrange := isDigit_range h
  apply dif_neg
  rintro ⟨hlow, -⟩
  have hnat : 65 ≤ c.toNat := hlow
  omega

theorem Numeral.unsignedFloat (x : Numeral) :
    Foundation.unsignedFloat x.negative x.unsigned = some x.toFloat := by
  obtain ⟨c, rest, hunsigned, hdigit⟩ := x.head?_unsigned
  have hname : ∀ (letter : Char) (name : Text), letter.isDigit = false →
      x.unsigned.map Char.toLower ≠ letter :: name := by
    intro letter name hletter heq
    rw [hunsigned, List.map_cons, toLower_of_isDigit hdigit] at heq
    exact ne_of_isDigit hdigit hletter (List.cons.inj heq).1
  unfold Foundation.unsignedFloat
  have hnan : x.unsigned.map Char.toLower ≠ "nan".toList := hname 'n' ['a', 'n'] (by decide)
  rw [if_neg, if_neg hnan, x.decimalFloat]
  rintro (h | h)
  · exact hname 'i' ['n', 'f'] (by decide) h
  · exact hname 'i' ['n', 'f', 'i', 'n', 'i', 't', 'y'] (by decide) h

theorem Padded.parseFloat {body : Text} {value : Binary64} (hpadded : Padded body text)
    (h : FloatLiteral body value) : Foundation.parseFloat text = some value := by
  unfold Foundation.parseFloat
  rw [hpadded.numeralText h.visible]
  cases h with
  | numeral x hint =>
      have hfloat := x.unsignedFloat
      obtain ⟨c, rest, hunsigned, hdigit⟩ := x.head?_unsigned
      have hminus := ne_of_isDigit hdigit (show '-'.isDigit = false by decide)
      have hplus := ne_of_isDigit hdigit (show '+'.isDigit = false by decide)
      rw [dropUnderscores_of_notMem (by decide) x.underscore_notMem_text]
      unfold Numeral.text
      cases hnegative : x.negative with
      | true =>
          rw [hnegative] at hfloat
          exact hfloat
      | false =>
          rw [hnegative] at hfloat
          rw [signed, if_neg (by decide), hunsigned]
          split
          · simp_all
          · simp_all
          · simp_all
          · simp_all
  | nan => rfl
  | infinity negative =>
      cases negative with
      | false => rfl
      | true => rfl

theorem Padded.strip {b : Bool} (hpadded : Padded (boolText b) text) :
    Foundation.strip text = boolText b := by
  obtain ⟨before, after, hbefore, hafter, rfl⟩ := hpadded
  apply trim_around
  · intro c hc
    exact isSpace_of_isWs (hbefore c hc)
  · intro c hc
    exact isSpace_of_isWs (hafter c hc)
  all_goals
    intro c hc
    cases b with
    | false =>
        obtain rfl := Option.some.inj hc
        decide
    | true =>
        obtain rfl := Option.some.inj hc
        decide

end Conversions

end Stra2us.Foundation.Json
