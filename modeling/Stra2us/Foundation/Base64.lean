import Stra2us.Foundation.Text

namespace Stra2us.Foundation.Base64

def digit (n : Nat) : Char :=
  if n < 26 then Char.ofNat (65 + n)
  else if n < 52 then Char.ofNat (71 + n)
  else if n < 62 then Char.ofNat (n - 4)
  else if n = 62 then '+'
  else '/'

def digit? (c : Char) : Option Nat :=
  if 65 ≤ c.toNat ∧ c.toNat ≤ 90 then some (c.toNat - 65)
  else if 97 ≤ c.toNat ∧ c.toNat ≤ 122 then some (c.toNat - 71)
  else if 48 ≤ c.toNat ∧ c.toNat ≤ 57 then some (c.toNat + 4)
  else if c = '+' then some 62
  else if c = '/' then some 63
  else none

-- Three bytes at a time, with the last group padded.
def encode : Bytes → Text
  | [] => []
  | [a] => [digit (a.toNat / 4), digit (a.toNat % 4 * 16), '=', '=']
  | [a, b] =>
      [digit (a.toNat / 4), digit (a.toNat % 4 * 16 + b.toNat / 16), digit (b.toNat % 16 * 4), '=']
  | a :: b :: c :: rest =>
      digit (a.toNat / 4) :: digit (a.toNat % 4 * 16 + b.toNat / 16) ::
        digit (b.toNat % 16 * 4 + c.toNat / 64) :: digit (c.toNat % 64) :: encode rest

-- Where the decoder stands: how far into a group, the bits left over, the padding seen.
structure Position where
  quad : Nat
  left : Nat
  pads : Nat

def Position.start : Position := ⟨0, 0, 0⟩

-- The byte a digit completes, and the position behind it.
def Position.take (at_ : Position) (n : Nat) : List UInt8 × Position :=
  match at_.quad with
  | 0 => ([], ⟨1, n, 0⟩)
  | 1 => ([UInt8.ofNat (at_.left * 4 + n / 16)], ⟨2, n % 16, 0⟩)
  | 2 => ([UInt8.ofNat (at_.left * 16 + n / 4)], ⟨3, n % 4, 0⟩)
  | _ => ([UInt8.ofNat (at_.left * 64 + n)], ⟨0, 0, 0⟩)

-- The lenient decoder passes over what is no digit, stops at the padding that completes a
-- group, and wants the last group complete.
def decodeFrom (at_ : Position) : Text → Option Bytes
  | [] => if at_.quad = 0 then some [] else none
  | '=' :: rest =>
      if 2 ≤ at_.quad then
        if 4 ≤ at_.quad + (at_.pads + 1) then some []
        else decodeFrom { at_ with pads := at_.pads + 1 } rest
      else decodeFrom at_ rest
  | c :: rest =>
      match digit? c with
      | none => decodeFrom at_ rest
      | some n => (decodeFrom (at_.take n).2 rest).map ((at_.take n).1 ++ ·)

-- Text outside ASCII is refused before it is decoded.
def decode (text : Text) : Option Bytes :=
  if text.all (·.toNat < 128) then decodeFrom .start text else none

theorem digit?_digit {n : Nat} (h : n < 64) : digit? (digit n) = some n := by
  have hall : ∀ m : Fin 64, digit? (digit m) = some m.val := by decide
  exact hall ⟨n, h⟩

theorem digit_ne_pad {n : Nat} (h : n < 64) : digit n ≠ '=' := by
  have hall : ∀ m : Fin 64, digit m ≠ '=' := by decide
  exact hall ⟨n, h⟩

theorem digit_ascii {n : Nat} (h : n < 64) : (digit n).toNat < 128 := by
  have hall : ∀ m : Fin 64, (digit m).toNat < 128 := by decide
  exact hall ⟨n, h⟩

theorem decodeFrom_digit {n : Nat} (h : n < 64) (at_ : Position) (rest : Text) :
    decodeFrom at_ (digit n :: rest) =
      (decodeFrom (at_.take n).2 rest).map ((at_.take n).1 ++ ·) := by
  have hdigit := digit?_digit h
  have hpad := digit_ne_pad h
  rw [decodeFrom.eq_3 _ _ _ hpad, hdigit]

theorem ofNat_eq {n : Nat} {byte : UInt8} (h : n = byte.toNat) : UInt8.ofNat n = byte := by
  rw [h, UInt8.ofNat_toNat]

theorem decodeFrom_encode (bytes : Bytes) : decodeFrom .start (encode bytes) = some bytes := by
  induction bytes using encode.induct with
  | case1 => rfl
  | case2 a =>
      have ha := a.toNat_lt
      have hbyte : UInt8.ofNat (a.toNat / 4 * 4 + a.toNat % 4 * 16 / 16) = a := ofNat_eq (by omega)
      unfold encode
      rw [decodeFrom_digit (by omega), decodeFrom_digit (by omega)]
      simp only [Position.take, Position.start, hbyte]
      rfl
  | case3 a b =>
      have ha := a.toNat_lt
      have hb := b.toNat_lt
      have hfirst : UInt8.ofNat (a.toNat / 4 * 4 + (a.toNat % 4 * 16 + b.toNat / 16) / 16) = a :=
        ofNat_eq (by omega)
      have hsecond : UInt8.ofNat ((a.toNat % 4 * 16 + b.toNat / 16) % 16 * 16 +
          b.toNat % 16 * 4 / 4) = b := ofNat_eq (by omega)
      unfold encode
      rw [decodeFrom_digit (by omega), decodeFrom_digit (by omega), decodeFrom_digit (by omega)]
      simp only [Position.take, Position.start, hfirst, hsecond]
      rfl
  | case4 a b c rest ih =>
      have ha := a.toNat_lt
      have hb := b.toNat_lt
      have hc := c.toNat_lt
      have hfirst : UInt8.ofNat (a.toNat / 4 * 4 + (a.toNat % 4 * 16 + b.toNat / 16) / 16) = a :=
        ofNat_eq (by omega)
      have hsecond : UInt8.ofNat ((a.toNat % 4 * 16 + b.toNat / 16) % 16 * 16 +
          (b.toNat % 16 * 4 + c.toNat / 64) / 4) = b := ofNat_eq (by omega)
      have hthird : UInt8.ofNat ((b.toNat % 16 * 4 + c.toNat / 64) % 4 * 64 + c.toNat % 64) = c :=
        ofNat_eq (by omega)
      unfold encode
      rw [decodeFrom_digit (by omega), decodeFrom_digit (by omega), decodeFrom_digit (by omega),
        decodeFrom_digit (by omega)]
      simp only [Position.take, Position.start, hfirst, hsecond, hthird]
      change Option.map _ (Option.map _ (Option.map _ (Option.map _ (decodeFrom .start _)))) = _
      rw [ih]
      rfl

theorem encode_ascii (bytes : Bytes) : ∀ c ∈ encode bytes, c.toNat < 128 := by
  have hpad : '='.toNat < 128 := by decide
  induction bytes using encode.induct with
  | case1 => simp [encode]
  | case2 a =>
      have ha := a.toNat_lt
      simp only [encode, List.mem_cons, List.not_mem_nil, or_false]
      rintro c (rfl | rfl | rfl | rfl)
      · exact digit_ascii (by omega)
      · exact digit_ascii (by omega)
      · exact hpad
      · exact hpad
  | case3 a b =>
      have ha := a.toNat_lt
      have hb := b.toNat_lt
      simp only [encode, List.mem_cons, List.not_mem_nil, or_false]
      rintro c (rfl | rfl | rfl | rfl)
      · exact digit_ascii (by omega)
      · exact digit_ascii (by omega)
      · exact digit_ascii (by omega)
      · exact hpad
  | case4 a b c rest ih =>
      have ha := a.toNat_lt
      have hb := b.toNat_lt
      have hc := c.toNat_lt
      simp only [encode, List.mem_cons]
      rintro d (rfl | rfl | rfl | rfl | hd)
      · exact digit_ascii (by omega)
      · exact digit_ascii (by omega)
      · exact digit_ascii (by omega)
      · exact digit_ascii (by omega)
      · exact ih d hd

-- Put together: what is encoded is decoded again.
theorem decode_encode (bytes : Bytes) : decode (encode bytes) = some bytes := by
  have hall : (encode bytes).all (·.toNat < 128) := by
    simpa using encode_ascii bytes
  unfold decode
  rw [if_pos hall, decodeFrom_encode]

end Stra2us.Foundation.Base64
