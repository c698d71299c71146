import Stra2us.Foundation.Text

namespace Stra2us.Foundation

def hexDigit (n : Nat) : Char :=
  if n < 10 then Char.ofNat (48 + n) else Char.ofNat (87 + n)

def hexValue (c : Char) : Option Nat :=
  if '0' ≤ c ∧ c ≤ '9' then some (c.toNat - 48)
  else if 'a' ≤ c ∧ c ≤ 'f' then some (c.toNat - 87)
  else if 'A' ≤ c ∧ c ≤ 'F' then some (c.toNat - 55)
  else none

def hexdigest (bytes : Bytes) : Text :=
  bytes.flatMap fun byte => [hexDigit (byte.toNat / 16), hexDigit (byte.toNat % 16)]

-- `bytes.fromhex`: white space may stand between two bytes, not inside one.
def fromHex : Text → Option Bytes
  | [] => some []
  | [c] => if c ∈ [' ', '\t', '\n', '\r', '\x0b', '\x0c'] then some [] else none
  | c :: d :: rest =>
      if c ∈ [' ', '\t', '\n', '\r', '\x0b', '\x0c'] then fromHex (d :: rest)
      else
        match hexValue c, hexValue d with
        | some high, some low => (fromHex rest).map (UInt8.ofNat (high * 16 + low) :: ·)
        | _, _ => none

theorem hexValue_hexDigit {n : Nat} (h : n < 16) : hexValue (hexDigit n) = some n := by
  revert n
  decide

theorem byte_of_nibbles (byte : UInt8) :
    UInt8.ofNat (byte.toNat / 16 * 16 + byte.toNat % 16) = byte := by
  have hsum : byte.toNat / 16 * 16 + byte.toNat % 16 = byte.toNat := Nat.div_add_mod' _ _
  rw [hsum, UInt8.ofNat_toNat]

-- A digest in hex tells which bytes it stands for.
theorem hexdigest_injective : Function.Injective hexdigest := by
  intro a
  induction a with
  | nil =>
      intro b h
      cases b with
      | nil => rfl
      | cons byte rest => simp [hexdigest] at h
  | cons byte rest ih =>
      intro b h
      cases b with
      | nil => simp [hexdigest] at h
      | cons byte' rest' =>
          simp only [hexdigest, List.flatMap_cons, List.cons_append, List.nil_append,
            List.cons.injEq] at h
          obtain ⟨hhigh, hlow, hrest⟩ := h
          have hb := byte.toNat_lt
          have hb' := byte'.toNat_lt
          have hhigh' := congrArg hexValue hhigh
          have hlow' := congrArg hexValue hlow
          rw [hexValue_hexDigit (by omega), hexValue_hexDigit (by omega)] at hhigh' hlow'
          have hbyte : byte = byte' := by
            rw [← byte_of_nibbles byte, ← byte_of_nibbles byte', Option.some.inj hhigh',
              Option.some.inj hlow']
          rw [hbyte, ih hrest]

end Stra2us.Foundation
