import Mathlib.Data.List.Basic
import Mathlib.Data.List.TakeWhile
import Mathlib.Tactic.Ring

namespace Stra2us.Foundation

-- A string is the list of its code points, a byte string the list of its bytes.
abbrev Text := List Char

abbrev Bytes := List UInt8

instance : LawfulBEq Text := inferInstance

def utf8 (text : Text) : Bytes :=
  text.flatMap String.utf8EncodeChar

def utf8Decode (bytes : Bytes) : Option Text :=
  bytes.toByteArray.utf8Decode?.map Array.toList

theorem toByteArray_utf8 (text : Text) : (utf8 text).toByteArray = text.utf8Encode := rfl

@[simp] theorem utf8Decode_utf8 (text : Text) : utf8Decode (utf8 text) = some text := by
  simp [utf8Decode, toByteArray_utf8, List.utf8Decode?_utf8Encode]

@[simp] theorem utf8_nil : utf8 [] = [] := rfl

@[simp] theorem utf8_append (a b : Text) : utf8 (a ++ b) = utf8 a ++ utf8 b := by
  simp [utf8]

theorem utf8_cons (c : Char) (text : Text) :
    utf8 (c :: text) = String.utf8EncodeChar c ++ utf8 text := rfl

theorem utf8_injective : Function.Injective utf8 := by
  intro a b h
  have hd := congrArg utf8Decode h
  simpa using hd

@[simp] theorem utf8_inj {a b : Text} : utf8 a = utf8 b ↔ a = b :=
  utf8_injective.eq_iff

-- Decoding is strict: what it accepts encodes back to the same bytes.
theorem utf8_of_utf8Decode {bytes : Bytes} {text : Text} (h : utf8Decode bytes = some text) :
    utf8 text = bytes := by
  unfold utf8Decode at h
  obtain ⟨chars, hc, rfl⟩ := Option.map_eq_some_iff.mp h
  have hs : bytes.toByteArray.utf8Decode?.isSome := by simp [hc]
  have he := ByteArray.utf8Encode_get_utf8Decode? (b := bytes.toByteArray) (h := hs)
  simp only [hc, Option.get_some] at he
  exact List.toByteArray_inj.mp he

section Spans

variable {p : Char → Bool} {before rest : Text}

-- A scan over what satisfies the predicate ends at the first character that does not.
theorem takeWhile_append_of_stop (hbefore : ∀ c ∈ before, p c)
    (hrest : ∀ c ∈ rest.head?, p c = false) : (before ++ rest).takeWhile p = before := by
  rw [List.takeWhile_append_of_pos hbefore]
  cases rest with
  | nil => simp
  | cons c rest => simp [hrest c rfl]

theorem dropWhile_append_of_stop (hbefore : ∀ c ∈ before, p c)
    (hrest : ∀ c ∈ rest.head?, p c = false) : (before ++ rest).dropWhile p = rest := by
  rw [List.dropWhile_append_of_pos hbefore]
  cases rest with
  | nil => rfl
  | cons c rest => simp [hrest c rfl]

-- Where the separator is in neither tail, a text is split at its last one.
theorem append_cons_inj_of_notMem {c : Char} {a b x y : Text} (ha : c ∉ a) (hb : c ∉ b)
    (h : x ++ c :: a = y ++ c :: b) : x = y ∧ a = b := by
  have hspan (tail front : Text) (htail : c ∉ tail) :
      (tail.reverse ++ c :: front.reverse).takeWhile (· ≠ c) = tail.reverse := by
    apply takeWhile_append_of_stop
    · intro d hd
      have hne : d ≠ c := fun heq => htail (heq ▸ List.mem_reverse.mp hd)
      simpa using hne
    · simp
  have hback := congrArg List.reverse h
  simp only [List.reverse_append, List.reverse_cons, List.append_assoc,
    List.singleton_append] at hback
  have htail : a.reverse = b.reverse := by
    rw [← hspan a x ha, hback, hspan b y hb]
  obtain rfl := List.reverse_injective htail
  exact ⟨List.append_cancel_right h, rfl⟩

end Spans

section Decimal

def natText (n : Nat) : Text :=
  Nat.toDigits 10 n

def intText : Int → Text
  | .ofNat n => natText n
  | .negSucc n => '-' :: natText (n + 1)

def decimalNat (text : Text) : Option Nat :=
  if text ≠ [] ∧ text.all Char.isDigit then some (Nat.ofDigitChars 10 text 0) else none

-- A plain decimal integer, as other programs write and read it.
def decimalInt : Text → Option Int
  | '-' :: digits => (decimalNat digits).map fun n => -(n : Int)
  | digits => (decimalNat digits).map fun n => (n : Int)

-- Digits with single underscores between them.
def isDigitRun : Text → Bool
  | [] => false
  | [c] => c.isDigit
  | c :: '_' :: rest => c.isDigit && isDigitRun rest
  | c :: rest => c.isDigit && isDigitRun rest

-- The interpreter refuses longer digit strings on both conversions.
def maxIntDigits : Nat := 4300

def parseDigits (text : Text) : Option Nat :=
  if isDigitRun text ∧ (text.filter (· ≠ '_')).length ≤ maxIntDigits then
    some (Nat.ofDigitChars 10 (text.filter (· ≠ '_')) 0)
  else none

def isSpace (c : Char) : Bool :=
  (9 ≤ c.toNat && c.toNat ≤ 13) || (28 ≤ c.toNat && c.toNat ≤ 32) || c.toNat = 0x85 ||
    c.toNat = 0xa0 || c.toNat = 0x1680 || (0x2000 ≤ c.toNat && c.toNat ≤ 0x200a) ||
    c.toNat = 0x2028 || c.toNat = 0x2029 || c.toNat = 0x202f || c.toNat = 0x205f || c.toNat = 0x3000

-- Both ends of the text freed of what the predicate holds of.
def trim (p : Char → Bool) (text : Text) : Text :=
  ((text.dropWhile p).reverse.dropWhile p).reverse

def strip (text : Text) : Text :=
  trim isSpace text

theorem trim_around {p : Char → Bool} {before body after : Text} (hbefore : ∀ c ∈ before, p c)
    (hafter : ∀ c ∈ after, p c) (hhead : ∀ c ∈ body.head?, p c = false)
    (hlast : ∀ c ∈ body.getLast?, p c = false) : trim p (before ++ body ++ after) = body := by
  unfold trim
  cases body with
  | nil =>
      have hall : ∀ c ∈ before ++ [] ++ after, p c := by
        intro c hc
        simp only [List.append_nil, List.mem_append] at hc
        rcases hc with hc | hc
        · exact hbefore c hc
        · exact hafter c hc
      rw [List.dropWhile_eq_nil_iff.mpr hall]
      rfl
  | cons first body =>
      have hfront : (before ++ first :: body ++ after).dropWhile p = first :: body ++ after := by
        rw [List.append_assoc]
        exact dropWhile_append_of_stop hbefore (by simpa using hhead)
      have hback : (first :: body ++ after).reverse.dropWhile p = (first :: body).reverse := by
        rw [List.reverse_append]
        apply dropWhile_append_of_stop
        · intro c hc
          exact hafter c (List.mem_reverse.mp hc)
        · rw [List.head?_reverse]
          exact hlast
      rw [hfront, hback, List.reverse_reverse]

theorem mem_dropWhile_of_not {text : Text} {p : Char → Bool} {c : Char} (h : c ∈ text) (hc : p c = false) :
    c ∈ text.dropWhile p := by
  have hsplit := List.takeWhile_append_dropWhile (p := p) (l := text)
  rw [← hsplit] at h
  rcases List.mem_append.mp h with h | h
  · exact absurd (List.mem_takeWhile_imp h) (by simp [hc])
  · exact h

theorem mem_trim {text : Text} {p : Char → Bool} {c : Char} (h : c ∈ text) (hc : p c = false) :
    c ∈ trim p text := by
  have hfront := mem_dropWhile_of_not h hc
  have hback := mem_dropWhile_of_not (List.mem_reverse.mpr hfront) hc
  exact List.mem_reverse.mpr hback

theorem isDigit_of_mem_natText {n : Nat} {c : Char} (h : c ∈ natText n) : c.isDigit :=
  Nat.isDigit_of_mem_toDigits (by omega) (by omega) h

theorem mem_intText {n : Int} {c : Char} (h : c ∈ intText n) : c = '-' ∨ c.isDigit := by
  cases n with
  | ofNat m => exact .inr (isDigit_of_mem_natText h)
  | negSucc m =>
      rcases List.mem_cons.mp h with rfl | h
      · exact .inl rfl
      · exact .inr (isDigit_of_mem_natText h)

theorem natText_ne_nil (n : Nat) : natText n ≠ [] :=
  Nat.toDigits_ne_nil

theorem natText_injective : Function.Injective natText := by
  intro a b h
  have hd := congrArg (fun t => Nat.ofDigitChars 10 t 0) h
  simpa [natText, Nat.ofDigitChars_ten_toDigits] using hd

@[simp] theorem decimalNat_natText (n : Nat) : decimalNat (natText n) = some n := by
  have hall : (natText n).all Char.isDigit := by
    simpa using fun c hc => isDigit_of_mem_natText hc
  simp only [decimalNat, ne_eq, natText_ne_nil, not_false_eq_true, hall, and_self, ite_true]
  simp [natText, Nat.ofDigitChars_ten_toDigits]

@[simp] theorem decimalInt_intText (n : Int) : decimalInt (intText n) = some n := by
  cases n with
  | ofNat m =>
      unfold decimalInt
      simp only [intText]
      split
      · rename_i digits he
        exact absurd (isDigit_of_mem_natText (n := m) (c := '-') (by simp [he])) (by decide)
      · simp
  | negSucc m =>
      simp only [decimalInt, intText, decimalNat_natText]
      rfl

theorem isDigitRun_of_all {text : Text} (hne : text ≠ []) (h : ∀ c ∈ text, c.isDigit) :
    isDigitRun text := by
  induction text with
  | nil => exact False.elim (hne rfl)
  | cons c rest ih =>
      cases rest with
      | nil => simpa [isDigitRun] using h
      | cons d rest =>
          have hd : d ≠ '_' := by
            rintro rfl
            exact absurd (h '_' (by simp)) (by decide)
          have hc := h c (by simp)
          have ht := ih (by simp) (fun x hx => h x (List.mem_cons_of_mem _ hx))
          unfold isDigitRun
          split
          · simp_all
          · simp_all
          · simp_all
          · simp_all

theorem filter_underscore_of_all {text : Text} (h : ∀ c ∈ text, c.isDigit) :
    text.filter (· ≠ '_') = text := by
  apply List.filter_eq_self.mpr
  intro c hc
  have hd := h c hc
  have hne : c ≠ '_' := by rintro rfl; exact absurd hd (by decide)
  simpa using hne

theorem parseDigits_natText (n : Nat) (hn : (natText n).length ≤ maxIntDigits) :
    parseDigits (natText n) = some n := by
  have hall : ∀ c ∈ natText n, c.isDigit := fun c hc => isDigit_of_mem_natText hc
  have hf := filter_underscore_of_all hall
  have hr := isDigitRun_of_all (natText_ne_nil n) hall
  simp only [parseDigits, hf, hr, hn, and_self, ite_true]
  simp [natText, Nat.ofDigitChars_ten_toDigits]

theorem intText_injective : Function.Injective intText := by
  have hminus : ∀ m : Nat, '-' ∉ natText m :=
    fun m hm => absurd (isDigit_of_mem_natText hm) (by decide)
  intro a b h
  cases a <;> cases b <;> simp only [intText] at h
  · rw [natText_injective h]
  · rename_i m k
    exact False.elim (hminus m (by simp [h]))
  · rename_i m k
    exact False.elim (hminus k (by simp [← h]))
  · have := natText_injective (List.cons.inj h).2
    simp_all

end Decimal

end Stra2us.Foundation
