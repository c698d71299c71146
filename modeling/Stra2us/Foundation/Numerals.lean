import Stra2us.Foundation.Json

namespace Stra2us.Foundation

-- The conversions from text to numbers, which take the digits of any script and
-- underscores between digits.

section Script

-- The zero of each block of decimal digits beyond ASCII.
def digitZeros : List Nat :=
  [0x660, 0x6f0, 0x7c0, 0x966, 0x9e6, 0xa66, 0xae6, 0xb66, 0xbe6, 0xc66, 0xce6, 0xd66, 0xde6,
    0xe50, 0xed0, 0xf20, 0x1040, 0x1090, 0x17e0, 0x1810, 0x1946, 0x19d0, 0x1a80, 0x1a90, 0x1b50,
    0x1bb0, 0x1c40, 0x1c50, 0xa620, 0xa8d0, 0xa900, 0xa9d0, 0xa9f0, 0xaa50, 0xabf0, 0xff10,
    0x104a0, 0x10d30, 0x11066, 0x110f0, 0x11136, 0x111d0, 0x112f0, 0x11450, 0x114d0, 0x11650,
    0x116c0, 0x11730, 0x118e0, 0x11950, 0x11c50, 0x11d50, 0x11da0, 0x16a60, 0x16ac0, 0x16b50,
    0x1d7ce, 0x1d7d8, 0x1d7e2, 0x1d7ec, 0x1d7f6, 0x1e140, 0x1e2f0, 0x1e950, 0x1fbf0]

def decimalDigit? (c : Char) : Option Nat :=
  (digitZeros.find? fun first => first ≤ c.toNat ∧ c.toNat < first + 10).map (c.toNat - ·)

-- ASCII is left alone; a blank or a digit of another script becomes the ASCII one, and
-- anything else a character that no number holds.
def asciiNumeral (c : Char) : Char :=
  if c.toNat < 127 then c
  else if isSpace c then ' '
  else match decimalDigit? c with
    | some digit => Char.ofNat (48 + digit)
    | none => '?'

def isAsciiSpace (c : Char) : Bool :=
  (9 ≤ c.toNat && c.toNat ≤ 13) || c.toNat = 32

def numeralText (text : Text) : Text :=
  trim isAsciiSpace (text.map asciiNumeral)

end Script

def parseInt (text : Text) : Option Int :=
  match numeralText text with
  | '-' :: digits => (parseDigits digits).map fun n => -(n : Int)
  | '+' :: digits => (parseDigits digits).map fun n => (n : Int)
  | digits => (parseDigits digits).map fun n => (n : Int)

section Float

-- An underscore stands between two digits; the first argument is the character before.
def dropUnderscores : Char → Text → Option Text
  | before, [] => if before = '_' then none else some []
  | before, c :: rest =>
      if c = '_' then if before.isDigit then dropUnderscores c rest else none
      else if before = '_' ∧ ¬ c.isDigit then none
      else (dropUnderscores c rest).map (c :: ·)

def scanPoint (text : Text) : Text × Text :=
  match text with
  | '.' :: rest => Json.takeDigits rest
  | _ => ([], text)

-- Digits on either side of the point are enough.
def decimalFloat (negative : Bool) (text : Text) : Option Binary64 :=
  let (whole, rest) := Json.takeDigits text
  let (fraction, rest) := scanPoint rest
  let (exp10, rest) := Json.scanExponent rest
  if whole ++ fraction ≠ [] ∧ rest = [] then
    some (.ofDecimal negative (Json.digitsNat (whole ++ fraction))
      (exp10.getD 0 - fraction.length))
  else none

def unsignedFloat (negative : Bool) (text : Text) : Option Binary64 :=
  let name := text.map Char.toLower
  if name = "inf".toList ∨ name = "infinity".toList then some (.infinity negative)
  else if name = "nan".toList then
    some (.ofSignAndBits negative (Binary64.infinityBits + 2 ^ 51))
  else decimalFloat negative text

def parseFloat (text : Text) : Option Binary64 :=
  match dropUnderscores '\x00' (numeralText text) with
  | some ('-' :: body) => unsignedFloat true body
  | some ('+' :: body) => unsignedFloat false body
  | some body => unsignedFloat false body
  | none => none

end Float

section Compare

inductive Number
  | int (n : Int)
  | float (x : Binary64)
deriving DecidableEq, Repr

-- A place on the line: which end, or a quotient between them.
structure Place where
  side : Int
  num : Int
  den : Nat

def Place.lt (a b : Place) : Bool :=
  a.side < b.side || (a.side = b.side && a.num * b.den < b.num * a.den)

def Number.place : Number → Option Place
  | .int n => some ⟨0, n, 1⟩
  | .float x =>
      if x.isNan then none
      else if x.isFinite then
        some ⟨0, if x.isNegative then -(x.toRatio.1 : Int) else x.toRatio.1, x.toRatio.2⟩
      else some ⟨if x.isNegative then -1 else 1, 0, 1⟩

-- Exact, whichever types are compared; nothing is below or above NaN.
def Number.lt (a b : Number) : Bool :=
  match a.place, b.place with
  | some p, some q => p.lt q
  | _, _ => false

end Compare

section Plain

theorem isDigit_range {c : Char} (h : c.isDigit) : 48 ≤ c.toNat ∧ c.toNat ≤ 57 := by
  simpa using Char.isDigit_iff_toNat.mp h

-- A numeral in ASCII is left as it is when the blanks around it have gone.
theorem numeralText_around {before body after : Text} (hbefore : ∀ c ∈ before, isAsciiSpace c)
    (hafter : ∀ c ∈ after, isAsciiSpace c) (hbody : ∀ c ∈ body, 32 < c.toNat ∧ c.toNat < 127) :
    numeralText (before ++ body ++ after) = body := by
  have hspace : ∀ c, isAsciiSpace c → c.toNat < 127 := by
    intro c hc
    simp only [isAsciiSpace, Bool.or_eq_true, Bool.and_eq_true, decide_eq_true_eq] at hc
    omega
  have hvisible : ∀ c ∈ body, isAsciiSpace c = false := by
    intro c hc
    have hrange := hbody c hc
    simp only [isAsciiSpace, Bool.or_eq_false_iff, Bool.and_eq_false_iff, decide_eq_false_iff_not]
    omega
  have hascii : ∀ c ∈ before ++ body ++ after, asciiNumeral c = c := by
    intro c hc
    simp only [List.mem_append] at hc
    have hlow : c.toNat < 127 := by
      rcases hc with (hc | hc) | hc
      · exact hspace c (hbefore c hc)
      · exact (hbody c hc).2
      · exact hspace c (hafter c hc)
    rw [asciiNumeral, if_pos hlow]
  have hplain : (before ++ body ++ after).map asciiNumeral = before ++ body ++ after :=
    (List.map_congr_left hascii).trans (List.map_id _)
  rw [numeralText, hplain]
  apply trim_around hbefore hafter
  · intro c hc
    exact hvisible c (List.mem_of_head? hc)
  · intro c hc
    exact hvisible c (List.mem_of_getLast? hc)

def signed (negative : Bool) (text : Text) : Text :=
  if negative then '-' :: text else text

def signedInt (negative : Bool) (n : Nat) : Int :=
  if negative then -(n : Int) else n

section Digits

variable {digits : Text}

theorem ne_of_isDigit {c d : Char} (h : c.isDigit) (hd : d.isDigit = false) : c ≠ d := by
  intro heq
  rw [heq, hd] at h
  cases h

theorem mem_signed {negative : Bool} {c : Char} (h : c ∈ signed negative digits) :
    c = '-' ∨ c ∈ digits := by
  cases negative with
  | true => exact List.mem_cons.mp h
  | false => exact .inr h

theorem parseDigits_of_all (hne : digits ≠ []) (h : ∀ c ∈ digits, c.isDigit) :
    parseDigits digits =
      if digits.length ≤ maxIntDigits then some (Json.digitsNat digits) else none := by
  have hfilter := filter_underscore_of_all h
  have hrun := isDigitRun_of_all hne h
  simp only [parseDigits, hfilter, hrun, true_and]
  rfl

-- Plain digits are read with blanks around them, unless there are too many.
theorem parseInt_around {before after : Text} (negative : Bool)
    (hbefore : ∀ c ∈ before, isAsciiSpace c) (hafter : ∀ c ∈ after, isAsciiSpace c)
    (hne : digits ≠ []) (h : ∀ c ∈ digits, c.isDigit) :
    parseInt (before ++ signed negative digits ++ after) =
      if digits.length ≤ maxIntDigits then some (signedInt negative (Json.digitsNat digits))
      else none := by
  have hparse := parseDigits_of_all hne h
  have hvisible : ∀ c ∈ signed negative digits, 32 < c.toNat ∧ c.toNat < 127 := by
    intro c hc
    rcases mem_signed hc with rfl | hc
    · decide
    · have hrange := isDigit_range (h c hc)
      omega
  unfold parseInt
  rw [numeralText_around hbefore hafter hvisible]
  cases negative with
  | true =>
      simp only [signed, ite_true, hparse]
      split <;> rfl
  | false =>
      obtain ⟨first, digits, rfl⟩ := List.exists_cons_of_ne_nil hne
      have hfirst := h first (by simp)
      have hminus := ne_of_isDigit hfirst (show '-'.isDigit = false by decide)
      have hplus := ne_of_isDigit hfirst (show '+'.isDigit = false by decide)
      simp only [signed, Bool.false_eq_true, ite_false]
      split
      · simp_all
      · simp_all
      · rw [hparse]
        split <;> rfl

end Digits

theorem parseInt_intText (n : Int) (hn : (natText n.natAbs).length ≤ maxIntDigits) :
    parseInt (intText n) = some n := by
  have hdigits : ∀ m : Nat, ∀ c ∈ natText m, c.isDigit := fun m c hc => isDigit_of_mem_natText hc
  have hread (negative : Bool) (m : Nat) (hm : (natText m).length ≤ maxIntDigits) :
      parseInt (signed negative (natText m)) = some (signedInt negative m) := by
    have h := @parseInt_around (natText m) [] [] negative (by simp) (by simp) (natText_ne_nil m)
      (hdigits m)
    rw [if_pos hm] at h
    simpa [Json.digitsNat, natText, Nat.ofDigitChars_ten_toDigits] using h
  cases n with
  | ofNat m => exact hread false m hn
  | negSucc m => exact hread true (m + 1) (by simpa using hn)

end Plain

section Length

theorem digits_value_lt {digits : Text} (h : ∀ c ∈ digits, c.isDigit) (init : Nat) :
    Nat.ofDigitChars 10 digits init < (init + 1) * 10 ^ digits.length := by
  induction digits generalizing init with
  | nil =>
      rw [Nat.ofDigitChars_nil, List.length_nil]
      omega
  | cons c rest ih =>
      have hc := Char.isDigit_iff_toNat.mp (h c (by simp))
      have hrest := ih (fun d hd => h d (by simp [hd])) (10 * init + (c.toNat - 48))
      rw [Nat.ofDigitChars_cons, List.length_cons, Nat.pow_succ]
      have hstep : 10 * init + (c.toNat - 48) + 1 ≤ (init + 1) * 10 := by
        have h0 : '0'.toNat = 48 := rfl
        have h9 : '9'.toNat = 57 := rfl
        omega
      calc _ < _ := hrest
        _ ≤ (init + 1) * 10 * 10 ^ rest.length := Nat.mul_le_mul_right _ hstep
        _ = (init + 1) * (10 ^ rest.length * 10) := by ring

theorem isDigit_of_run {text : Text} (h : isDigitRun text) :
    ∀ c ∈ text.filter (· ≠ '_'), c.isDigit := by
  induction text using isDigitRun.induct with
  | case1 => nomatch h
  | case2 c =>
      intro d hd
      have hsame := List.mem_singleton.mp (List.mem_filter.mp hd).1
      exact hsame ▸ h
  | case3 c rest ih =>
      unfold isDigitRun at h
      obtain ⟨hc, hrest⟩ := Bool.and_eq_true_iff.mp h
      intro d hd
      simp only [List.mem_filter, List.mem_cons] at hd
      rcases hd with ⟨rfl | rfl | hd, hne⟩
      · exact hc
      · simp at hne
      · exact ih hrest d (List.mem_filter.mpr ⟨hd, hne⟩)
  | case4 c rest hone htwo ih =>
      simp only [isDigitRun, Bool.and_eq_true] at h
      obtain ⟨hc, hrest⟩ := h
      intro d hd
      simp only [List.mem_filter, List.mem_cons] at hd
      rcases hd with ⟨rfl | hd, hne⟩
      · exact hc
      · exact ih hrest d (List.mem_filter.mpr ⟨hd, hne⟩)

-- What can be read can be written again.
theorem natText_length_of_parseDigits {text : Text} {n : Nat} (h : parseDigits text = some n) :
    (natText n).length ≤ maxIntDigits := by
  unfold parseDigits at h
  split_ifs at h with hrun
  obtain ⟨hdigits, hlength⟩ := hrun
  have hlt := digits_value_lt (isDigit_of_run hdigits) 0
  rw [Option.some.inj h, Nat.zero_add, Nat.one_mul] at hlt
  have hpos : 0 < maxIntDigits := by decide
  exact (Nat.length_toDigits_le_iff (by omega) hpos).mpr
    (lt_of_lt_of_le hlt (Nat.pow_le_pow_right (by omega) hlength))

theorem intDigits_of_parseInt {text : Text} {n : Int} (h : parseInt text = some n) :
    Json.intDigits n = .ok (intText n) := by
  have hshort : (natText n.natAbs).length ≤ maxIntDigits := by
    unfold parseInt at h
    split at h
    all_goals
      obtain ⟨read, hread, rfl⟩ := Option.map_eq_some_iff.mp h
      obtain ⟨m, hm, hcast⟩ := Option.bind_eq_some_iff.mp hread
      obtain rfl := Option.some.inj hcast
      simpa using natText_length_of_parseDigits hm
  exact if_pos hshort

end Length

end Stra2us.Foundation
