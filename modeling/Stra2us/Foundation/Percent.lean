import Stra2us.Foundation.Hex
import Mathlib.Data.List.TakeWhile

namespace Stra2us.Foundation

-- Percent-encoding of the segments of a URL path.
namespace Percent

def isUnreserved (c : Char) : Bool :=
  c.isAlphanum || c = '_' || c = '.' || c = '-' || c = '~'

def hexUpper (n : Nat) : Char :=
  if n < 10 then Char.ofNat (48 + n) else Char.ofNat (55 + n)

def quoteByte (byte : UInt8) : Text :=
  if isUnreserved (Char.ofNat byte.toNat) then [Char.ofNat byte.toNat]
  else ['%', hexUpper (byte.toNat / 16), hexUpper (byte.toNat % 16)]

-- `quote` with no safe characters beyond the unreserved ones.
def quote (text : Text) : Text :=
  (utf8 text).flatMap quoteByte

def quotePath (path : Text) : Text :=
  ['/'].intercalate ((path.splitOn '/').map quote)

-- An escape with anything but two hex digits stands for itself.
def unquoteBytes : Text → Bytes
  | '%' :: a :: b :: rest =>
      match hexValue a, hexValue b with
      | some high, some low => UInt8.ofNat (high * 16 + low) :: unquoteBytes rest
      | _, _ => 0x25 :: unquoteBytes (a :: b :: rest)
  | c :: rest => String.utf8EncodeChar c ++ unquoteBytes rest
  | [] => []

-- Decoding puts replacement characters where the bytes are no UTF-8.
def unquote (replaced : Bytes → Text) (text : Text) : Text :=
  (utf8Decode (unquoteBytes text)).getD (replaced (unquoteBytes text))

theorem unquoteBytes_cons {c : Char} (h : c ≠ '%') (rest : Text) :
    unquoteBytes (c :: rest) = String.utf8EncodeChar c ++ unquoteBytes rest := by
  rw [unquoteBytes]
  rintro a b tail rfl -
  exact h rfl

-- A fact about each byte is checked on all of them.
theorem byte_forall {P : UInt8 → Prop} (h : ∀ n < 256, P (UInt8.ofNat n)) (byte : UInt8) :
    P byte := by
  have hb := h byte.toNat byte.toNat_lt
  rwa [UInt8.ofNat_toNat] at hb

theorem quoteByte_spec (byte : UInt8) :
    (isUnreserved (Char.ofNat byte.toNat) = true →
      String.utf8EncodeChar (Char.ofNat byte.toNat) = [byte] ∧ Char.ofNat byte.toNat ≠ '%') ∧
    hexValue (hexUpper (byte.toNat / 16)) = some (byte.toNat / 16) ∧
    hexValue (hexUpper (byte.toNat % 16)) = some (byte.toNat % 16) := by
  revert byte
  apply byte_forall
  decide +kernel

theorem unquoteBytes_quoteByte (byte : UInt8) (rest : Text) :
    unquoteBytes (quoteByte byte ++ rest) = byte :: unquoteBytes rest := by
  obtain ⟨hplain, hhigh, hlow⟩ := quoteByte_spec byte
  unfold quoteByte
  by_cases h : isUnreserved (Char.ofNat byte.toNat)
  · obtain ⟨hutf8, hne⟩ := hplain h
    rw [if_pos h, List.singleton_append, unquoteBytes_cons hne, hutf8, List.singleton_append]
  · rw [if_neg h]
    simp only [List.cons_append, List.nil_append]
    rw [unquoteBytes]
    simp only [hhigh, hlow, byte_of_nibbles]

theorem unquoteBytes_flatMap (bytes : Bytes) (rest : Text) :
    unquoteBytes (bytes.flatMap quoteByte ++ rest) = bytes ++ unquoteBytes rest := by
  induction bytes with
  | nil => rfl
  | cons byte bytes ih =>
      rw [List.flatMap_cons, List.append_assoc, unquoteBytes_quoteByte, ih, List.cons_append]

-- What a path character becomes; the separator stays.
def quoteChar (c : Char) : Text :=
  if c = '/' then ['/'] else quote [c]

theorem quote_cons (c : Char) (text : Text) : quote (c :: text) = quote [c] ++ quote text := by
  simp [quote, utf8_cons]

theorem quotePath_cons (c : Char) (path : Text) :
    quotePath (c :: path) = quoteChar c ++ quotePath path := by
  have hne : path.splitOn '/' ≠ [] := List.splitOn_ne_nil _ _
  obtain ⟨first, segments, hsplit⟩ := List.exists_cons_of_ne_nil hne
  unfold quotePath quoteChar
  rw [List.splitOn_cons_eq_if_modifyHead, hsplit]
  by_cases hc : c = '/'
  · subst hc
    simp [List.intercalate, quote]
  · rw [if_neg (by simpa using hc), if_neg hc, List.modifyHead_cons, List.map_cons, List.map_cons,
      quote_cons]
    cases segments <;> simp [List.intercalate]

theorem quotePath_eq (path : Text) : quotePath path = path.flatMap quoteChar := by
  induction path with
  | nil => rfl
  | cons c path ih => rw [quotePath_cons, ih, List.flatMap_cons]

theorem unquoteBytes_quotePath (path rest : Text) :
    unquoteBytes (quotePath path ++ rest) = utf8 path ++ unquoteBytes rest := by
  induction path with
  | nil => rfl
  | cons c path ih =>
      rw [quotePath_cons, List.append_assoc, utf8_cons, List.append_assoc, quoteChar]
      by_cases hc : c = '/'
      · subst hc
        rw [if_pos rfl, List.singleton_append, unquoteBytes_cons (by decide), ih]
      · rw [if_neg hc, quote, unquoteBytes_flatMap, ih]
        simp [utf8]

theorem quotePath_append (a b : Text) : quotePath (a ++ b) = quotePath a ++ quotePath b := by
  simp [quotePath_eq]

-- Decoding a path that was encoded gives it back.
theorem unquote_quotePath (replaced : Bytes → Text) (path : Text) :
    unquote replaced (quotePath path) = path := by
  have h := unquoteBytes_quotePath path []
  rw [List.append_nil, unquoteBytes, List.append_nil] at h
  simp [unquote, h]

section Plain

def isPathChar (c : Char) : Bool :=
  c = '/' || isUnreserved c

theorem utf8EncodeChar_of_lt {c : Char} (h : c.toNat < 128) :
    String.utf8EncodeChar c = [UInt8.ofNat c.toNat] := by
  rw [String.utf8EncodeChar_eq_singleton (Char.utf8Size_eq_one_iff.mpr (by
    rw [UInt32.le_iff_toNat_le]
    exact Nat.le_of_lt_succ h))]
  rfl

theorem lt_of_isUnreserved {c : Char} (h : isUnreserved c) : c.toNat < 128 := by
  have hval : c.toNat = c.val.toNat := rfl
  have halnum : c.isAlphanum = ((decide (c.val ≥ 'A'.val ∧ c.val ≤ 'Z'.val) ||
      decide (c.val ≥ 'a'.val) && decide (c.val ≤ 'z'.val)) ||
        decide (c.val ≥ '0'.val) && decide (c.val ≤ '9'.val)) := rfl
  simp only [isUnreserved, halnum, Bool.or_eq_true, Bool.and_eq_true, decide_eq_true_eq, ge_iff_le,
    UInt32.le_iff_toNat_le] at h
  rcases h with ((((h | h) | h) | h) | h) | h
  · simp at h
    omega
  · simp at h
    omega
  · subst h; decide
  · subst h; decide
  · subst h; decide
  · subst h; decide

theorem quoteChar_of_isPathChar {c : Char} (h : isPathChar c) : quoteChar c = [c] := by
  unfold quoteChar
  by_cases hc : c = '/'
  · rw [if_pos hc, hc]
  · have hu : isUnreserved c := by simpa [isPathChar, hc] using h
    have hlt := lt_of_isUnreserved hu
    have hbyte : (UInt8.ofNat c.toNat).toNat = c.toNat := by
      rw [UInt8.toNat_ofNat']
      omega
    rw [if_neg hc, quote, utf8_cons, utf8EncodeChar_of_lt hlt]
    simp [quoteByte, hbyte, Char.ofNat_toNat, hu]

theorem length_quoteByte_pos (byte : UInt8) : 1 ≤ (quoteByte byte).length := by
  unfold quoteByte
  split <;> simp

theorem length_flatMap_quoteByte (bytes : Bytes) :
    bytes.length ≤ (bytes.flatMap quoteByte).length := by
  induction bytes with
  | nil => simp
  | cons byte bytes ih =>
      have hpos := length_quoteByte_pos byte
      simp only [List.flatMap_cons, List.length_append, List.length_cons]
      omega

-- What has to be encoded takes more than one character.
theorem length_quoteChar_of_not {c : Char} (h : isPathChar c = false) :
    2 ≤ (quoteChar c).length := by
  obtain ⟨hc, hu⟩ : c ≠ '/' ∧ isUnreserved c = false := by simpa [isPathChar] using h
  unfold quoteChar
  rw [if_neg hc, quote, utf8_cons]
  by_cases hlt : c.toNat < 128
  · have hbyte : (UInt8.ofNat c.toNat).toNat = c.toNat := by
      rw [UInt8.toNat_ofNat']
      omega
    rw [utf8EncodeChar_of_lt hlt]
    simp [quoteByte, hbyte, Char.ofNat_toNat, hu]
  · have hsize : c.utf8Size ≠ 1 := by
      intro hone
      have hle := Char.utf8Size_eq_one_iff.mp hone
      rw [UInt32.le_iff_toNat_le] at hle
      exact hlt (Nat.lt_succ_of_le hle)
    have hpos := Char.utf8Size_pos c
    have hlen := length_flatMap_quoteByte (String.utf8EncodeChar c ++ utf8 [])
    rw [List.length_append, String.length_utf8EncodeChar] at hlen
    omega

theorem length_quoteChar_pos (c : Char) : 1 ≤ (quoteChar c).length := by
  by_cases h : isPathChar c
  · simp [quoteChar_of_isPathChar h]
  · have hlen := length_quoteChar_of_not (by simpa using h)
    omega

theorem length_quotePath (path : Text) : path.length ≤ (quotePath path).length := by
  induction path with
  | nil => simp
  | cons c path ih =>
      have hpos := length_quoteChar_pos c
      rw [quotePath_cons, List.length_append, List.length_cons]
      omega

-- A path goes out as it is exactly when none of its characters has to be encoded.
theorem quotePath_eq_self_iff (path : Text) :
    quotePath path = path ↔ ∀ c ∈ path, isPathChar c := by
  constructor
  · intro h
    induction path with
    | nil => simp
    | cons c path ih =>
        have hlen := congrArg List.length h
        have hle := length_quotePath path
        rw [quotePath_cons, List.length_append, List.length_cons] at hlen
        have hc : isPathChar c := by
          by_contra hnot
          have htwo := length_quoteChar_of_not (by simpa using hnot)
          omega
        rw [quotePath_cons, quoteChar_of_isPathChar hc, List.singleton_append,
          List.cons.injEq] at h
        intro d hd
        rcases List.mem_cons.mp hd with rfl | hd
        · exact hc
        · exact ih h.2 d hd
  · intro h
    rw [quotePath_eq]
    calc
      path.flatMap quoteChar = path.flatMap fun c => [c] := by
        apply List.flatMap_congr
        intro c hc
        exact quoteChar_of_isPathChar (h c hc)
      _ = path := by simp

theorem length_unquoteBytes {text : Text} (h : ∀ c ∈ text, c.toNat < 128) :
    (unquoteBytes text).length ≤ text.length := by
  fun_induction unquoteBytes text with
  | case1 a b rest high low hhigh hlow ih =>
      have hrest := ih fun c hc => h c (by simp [hc])
      simp only [List.length_cons]
      omega
  | case2 a b rest hno ih =>
      have hrest := ih fun c hc => h c (List.mem_cons_of_mem _ hc)
      simpa using hrest
  | case3 c rest hno ih =>
      have hrest := ih fun c hc => h c (List.mem_cons_of_mem _ hc)
      rw [List.length_append, utf8EncodeChar_of_lt (h c List.mem_cons_self)]
      simp only [List.length_cons, List.length_nil]
      omega
  | case4 => simp

theorem length_le_utf8 (text : Text) : text.length ≤ (utf8 text).length := by
  induction text with
  | nil => simp
  | cons c rest ih =>
      have hpos := Char.utf8Size_pos c
      rw [utf8_cons, List.length_append, String.length_utf8EncodeChar, List.length_cons]
      omega

-- Decoding makes nothing longer.
theorem length_unquote {replaced : Bytes → Text} {text : Text}
    (hreplaced : ∀ bytes, (replaced bytes).length ≤ bytes.length)
    (h : ∀ c ∈ text, c.toNat < 128) : (unquote replaced text).length ≤ text.length := by
  have hbytes := length_unquoteBytes h
  unfold unquote
  cases hdecode : utf8Decode (unquoteBytes text) with
  | none => exact (hreplaced _).trans hbytes
  | some decoded =>
      have hlength := length_le_utf8 decoded
      rw [utf8_of_utf8Decode hdecode] at hlength
      exact hlength.trans hbytes

end Plain

section Ascii

-- The characters a request line may carry, but for the one that starts the query.
def isTargetChar (c : Char) : Bool :=
  0x21 ≤ c.toNat && c.toNat ≤ 0x7e && c ≠ '?'

theorem isTargetChar_quoteByte (byte : UInt8) : ∀ c ∈ quoteByte byte, isTargetChar c := by
  apply List.all_eq_true.mp
  revert byte
  apply byte_forall
  decide +kernel

theorem isTargetChar_quotePath (path : Text) : ∀ c ∈ quotePath path, isTargetChar c := by
  intro c hc
  rw [quotePath_eq] at hc
  obtain ⟨d, -, hd⟩ := List.mem_flatMap.mp hc
  unfold quoteChar at hd
  split at hd
  · obtain rfl := List.mem_singleton.mp hd
    decide
  · obtain ⟨byte, -, hbyte⟩ := List.mem_flatMap.mp hd
    exact isTargetChar_quoteByte byte c hbyte

end Ascii

end Percent

end Stra2us.Foundation
