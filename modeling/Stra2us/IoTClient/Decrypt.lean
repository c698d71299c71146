import Stra2us.Foundation.Repack
import Stra2us.Kv.Ciphers
import Stra2us.Kv.Nonce
import Stra2us.Server.Device

namespace Stra2us.IoTClient

open Foundation Server Kv Kv.Implementation

-- The object that `data` points into, from there to its end, and what `*len` says of it.
structure Buffer where
  memory : Bytes
  len : Nat
deriving DecidableEq, Repr

structure Buffer.Valid (b : Buffer) : Prop where
  inside : b.len ≤ b.memory.length
  sized : b.memory.length < sizeMax

def Buffer.visible (b : Buffer) : Bytes :=
  b.memory.take b.len

structure ExtHeader where
  headerLen : Nat
  payloadLen : Nat
  extType : Int8
deriving DecidableEq, Repr

section Parse

def fixext (b : Buffer) (payloadLen : Nat) : Option (Option ExtHeader) := do
  let extType ← b.memory[1]?
  some (some ⟨2, payloadLen, extType.toInt8⟩)

def ext8 (b : Buffer) : Option (Option ExtHeader) := do
  if b.len < 3 then some none
  else
    let size ← b.memory[1]?
    let extType ← b.memory[2]?
    some (some ⟨3, size.toNat, extType.toInt8⟩)

def ext16 (b : Buffer) : Option (Option ExtHeader) := do
  if b.len < 4 then some none
  else
    let high ← b.memory[1]?
    let low ← b.memory[2]?
    let extType ← b.memory[3]?
    some (some ⟨4, high.toNat <<< 8 ||| low.toNat, extType.toInt8⟩)

def ext32 (b : Buffer) : Option (Option ExtHeader) := do
  if b.len < 6 then some none
  else
    let b3 ← b.memory[1]?
    let b2 ← b.memory[2]?
    let b1 ← b.memory[3]?
    let b0 ← b.memory[4]?
    let extType ← b.memory[5]?
    some (some ⟨6, b3.toNat <<< 24 ||| b2.toNat <<< 16 ||| b1.toNat <<< 8 ||| b0.toNat,
      extType.toInt8⟩)

-- The switch on the marker. No header is a `return false`, and a read beyond the object has no
-- outcome at all.
def readHeader (b : Buffer) : Option (Option ExtHeader) := do
  let marker ← b.memory[0]?
  match marker.toNat with
  | 0xd4 => fixext b 1
  | 0xd5 => fixext b 2
  | 0xd6 => fixext b 4
  | 0xd7 => fixext b 8
  | 0xd8 => fixext b 16
  | 0xc7 => ext8 b
  | 0xc8 => ext16 b
  | 0xc9 => ext32 b
  | _ => some none

end Parse

-- `memmove(data, data + source, count)`.
def memmove (memory : Bytes) (source count : Nat) : Option Bytes :=
  if source + count ≤ memory.length then
    some ((memory.drop source).take count ++ memory.drop count)
  else none

-- `decryptKVResponseIfEncrypted`, past its checks for null pointers.
def decryptKVResponseIfEncrypted (hmac : Hmac) (client : IoTClient) (b : Buffer) :
    Option (Bool × Buffer) := do
  if b.len < 2 then some (false, b)
  else
    match ← readHeader b with
    | none => some (false, b)
    | some header =>
        if header.extType ≠ 0x21 then some (false, b)
        else if sizeAdd header.headerLen header.payloadLen > b.len then some (false, b)
        else
          let masked ← client.kvencXor hmac client.lastResponseTs
            (b.memory.drop header.headerLen) header.payloadLen
          let memory ← memmove (b.memory.take header.headerLen ++ masked) header.headerLen
            header.payloadLen
          some (true, ⟨memory, header.payloadLen⟩)

section Frame

-- The length that an ext marker gives, and what stands behind it.
def extFrame : Bytes → Option (Nat × Bytes)
  | [] => none
  | marker :: rest =>
      match marker.toNat with
      | 0xd4 => some (1, rest)
      | 0xd5 => some (2, rest)
      | 0xd6 => some (4, rest)
      | 0xd7 => some (8, rest)
      | 0xd8 => some (16, rest)
      | 0xc7 => Msgpack.readUint 1 rest
      | 0xc8 => Msgpack.readUint 2 rest
      | 0xc9 => Msgpack.readUint 4 rest
      | _ => none

-- A MessagePack reader finds an extension of this type at the front, all of it.
def BeginsWithExt (bytes : Bytes) : Prop :=
  ∃ payload rest, Msgpack.decodeHead false none bytes = some (.ext kvencExtType payload, rest)

theorem decodeHead_of_extFrame {bytes rest : Bytes} {n : Nat}
    (h : extFrame bytes = some (n, rest)) :
    Msgpack.decodeHead false none bytes = Msgpack.decodeExt n rest := by
  cases bytes with
  | nil => cases h
  | cons marker tail =>
      unfold extFrame at h
      dsimp only at h
      split at h
      case h_9 => cases h
      all_goals
        rename_i hmarker
        unfold Msgpack.decodeHead
        dsimp only
        rw [hmarker]
        simp at h ⊢
      -- Five markers give the length themselves, three are followed by it.
      iterate 5
        · obtain ⟨rfl, rfl⟩ := h
          rfl
      all_goals
        rw [h]
        rfl

theorem extFrame_of_decodeHead {bytes payload tail : Bytes} {code : Nat}
    (h : Msgpack.decodeHead false none bytes = some (.ext code payload, tail)) :
    ∃ n rest, extFrame bytes = some (n, rest) := by
  cases bytes with
  | nil => cases h
  | cons marker rest =>
      unfold Msgpack.decodeHead at h
      dsimp only at h
      split at h
      · simp at h
      split at h
      · simp [Msgpack.decodeMap] at h
      split at h
      · simp [Msgpack.decodeArray] at h
      split at h
      · simp [Msgpack.decodeStr, Msgpack.makeStr, Option.bind_eq_some_iff] at h
      split at h
      · simp at h
      unfold extFrame
      dsimp only
      split at h
      case h_7 | h_8 | h_9 =>
        rename_i hmarker
        rw [hmarker]
        obtain ⟨⟨n, tail⟩, hread, -⟩ := Option.bind_eq_some_iff.mp h
        exact ⟨n, tail, hread⟩
      case h_20 | h_21 | h_22 | h_23 | h_24 =>
        rename_i hmarker
        rw [hmarker]
        exact ⟨_, _, rfl⟩
      -- Behind no other marker does an extension come out.
      all_goals
        simp [Msgpack.decodeStr, Msgpack.decodeBin, Msgpack.decodeArray, Msgpack.decodeMap,
          Msgpack.makeStr, Option.bind_eq_some_iff] at h

theorem code_of_makeExt {code : Nat} {data payload : Bytes}
    (h : Msgpack.makeExt code data = some (.ext kvencExtType payload)) : code = kvencExtType := by
  unfold Msgpack.makeExt at h
  split at h
  · exact (Value.ext.inj (Option.some.inj h)).1
  · split at h
    · obtain ⟨seconds, nanoseconds, heq⟩ := Msgpack.makeTimestamp_eq h
      cases heq
    · cases h

-- The type and the payload have to be there.
theorem decodeExt_iff {n : Nat} {bytes : Bytes} :
    (∃ payload tail, Msgpack.decodeExt n bytes = some (.ext kvencExtType payload, tail)) ↔
      ∃ rest, bytes = 0x21 :: rest ∧ n ≤ rest.length := by
  have hcode (code : UInt8) (rest : Bytes) :
      Msgpack.readUint 1 (code :: rest) = some (code.toNat, rest) := by
    simp [Msgpack.readUint, Msgpack.takeBytes, beNat]
  constructor
  · rintro ⟨payload, tail, h⟩
    cases bytes with
    | nil => simp [Msgpack.decodeExt, Msgpack.readUint, Msgpack.takeBytes] at h
    | cons code rest =>
        simp only [Msgpack.decodeExt, hcode, Option.bind_eq_bind, Option.bind_some,
          Option.bind_eq_some_iff, Option.some.injEq, Prod.mk.injEq] at h
        obtain ⟨⟨data, rest'⟩, htake, value, hmake, rfl, -⟩ := h
        have hroom : n ≤ rest.length := by
          unfold Msgpack.takeBytes at htake
          by_contra hshort
          rw [if_neg hshort] at htake
          cases htake
        have htype : code = 0x21 := UInt8.toNat_inj.mp (code_of_makeExt hmake)
        exact ⟨rest, by rw [htype], hroom⟩
  · rintro ⟨rest, rfl, hroom⟩
    refine ⟨rest.take n, rest.drop n, ?_⟩
    simp only [Msgpack.decodeExt, hcode, Msgpack.takeBytes, if_pos hroom, Option.bind_eq_bind,
      Option.bind_some]
    rfl

theorem beginsWithExt_iff {bytes : Bytes} : BeginsWithExt bytes ↔
    ∃ n rest, extFrame bytes = some (n, 0x21 :: rest) ∧ n ≤ rest.length := by
  constructor
  · rintro ⟨payload, tail, h⟩
    obtain ⟨n, rest, hframe⟩ := extFrame_of_decodeHead h
    rw [decodeHead_of_extFrame hframe] at h
    obtain ⟨rest', rfl, hroom⟩ := decodeExt_iff.mp ⟨payload, tail, h⟩
    exact ⟨n, rest', hframe, hroom⟩
  · rintro ⟨n, rest, hframe, hroom⟩
    obtain ⟨payload, tail, h⟩ := decodeExt_iff.mpr ⟨rest, rfl, hroom⟩
    exact ⟨payload, tail, by rw [decodeHead_of_extFrame hframe, h]⟩

end Frame

section Header

-- The header that a frame makes of a buffer of this length, when its type is still in it.
def headerOf (len : Nat) : Option (Nat × Bytes) → Option ExtHeader
  | some (payloadLen, code :: rest) => some ⟨len - rest.length, payloadLen, code.toInt8⟩
  | _ => none

theorem or_low {high low k : Nat} (hhigh : 2 ^ k ∣ high) (hlow : low < 2 ^ k) :
    high ||| low = high + low := by
  obtain ⟨q, rfl⟩ := hhigh
  rw [Nat.mul_comm, ← Nat.shiftLeft_eq, Nat.shiftLeft_add_eq_or_of_lt hlow]

theorem size16_eq (high low : UInt8) :
    high.toNat <<< 8 ||| low.toNat = beNat [high, low] := by
  have hlow := low.toNat_lt
  rw [or_low (k := 8) (by rw [Nat.shiftLeft_eq]; omega) (by omega), Nat.shiftLeft_eq]
  simp [beNat]

theorem size32_eq (b3 b2 b1 b0 : UInt8) :
    b3.toNat <<< 24 ||| b2.toNat <<< 16 ||| b1.toNat <<< 8 ||| b0.toNat =
      beNat [b3, b2, b1, b0] := by
  have h2 := b2.toNat_lt
  have h1 := b1.toNat_lt
  have h0 := b0.toNat_lt
  simp only [Nat.shiftLeft_eq]
  rw [@or_low (b3.toNat * 2 ^ 24) _ 24 (by omega) (by omega),
    @or_low (b3.toNat * 2 ^ 24 + b2.toNat * 2 ^ 16) _ 16 (by omega) (by omega),
    @or_low (b3.toNat * 2 ^ 24 + b2.toNat * 2 ^ 16 + b1.toNat * 2 ^ 8) _ 8 (by omega) (by omega)]
  simp [beNat]
  omega

section Sized

variable {marker second : UInt8} {rest tail : Bytes}

theorem fixext_eq (n : Nat) :
    fixext ⟨marker :: second :: rest ++ tail, (marker :: second :: rest).length⟩ n =
      some (headerOf (marker :: second :: rest).length (some (n, second :: rest))) := by
  have hheader : rest.length + 1 + 1 - rest.length = 2 := by omega
  simp [fixext, headerOf, hheader]

theorem ext8_eq :
    ext8 ⟨marker :: second :: rest ++ tail, (marker :: second :: rest).length⟩ =
      some (headerOf (marker :: second :: rest).length
        (Msgpack.readUint 1 (second :: rest))) := by
  match rest with
  | [] => rfl
  | extType :: rest =>
      have hheader : rest.length + 1 + 1 + 1 - rest.length = 3 := by omega
      simp [ext8, headerOf, Msgpack.readUint, Msgpack.takeBytes, beNat, hheader]

theorem ext16_eq :
    ext16 ⟨marker :: second :: rest ++ tail, (marker :: second :: rest).length⟩ =
      some (headerOf (marker :: second :: rest).length
        (Msgpack.readUint 2 (second :: rest))) := by
  match rest with
  | [] => rfl
  | [_] => rfl
  | low :: extType :: rest =>
      have hheader : rest.length + 1 + 1 + 1 + 1 - rest.length = 4 := by omega
      simp [ext16, size16_eq, headerOf, Msgpack.readUint, Msgpack.takeBytes, hheader]

theorem ext32_eq :
    ext32 ⟨marker :: second :: rest ++ tail, (marker :: second :: rest).length⟩ =
      some (headerOf (marker :: second :: rest).length
        (Msgpack.readUint 4 (second :: rest))) := by
  match rest with
  | [] => rfl
  | [_] => rfl
  | [_, _] => rfl
  | [_, _, _] => rfl
  | b2 :: b1 :: b0 :: extType :: rest =>
      have hheader : rest.length + 1 + 1 + 1 + 1 + 1 + 1 - rest.length = 6 := by omega
      simp [ext32, size32_eq, headerOf, Msgpack.readUint, Msgpack.takeBytes, hheader]

end Sized

-- Within the buffer the switch reads the frame that a MessagePack reader would.
theorem readHeader_eq {visible tail : Bytes} (hlen : 2 ≤ visible.length) :
    readHeader ⟨visible ++ tail, visible.length⟩ =
      some (headerOf visible.length (extFrame visible)) := by
  match visible, hlen with
  | marker :: second :: rest, _ =>
      unfold readHeader extFrame
      simp only [List.cons_append, List.getElem?_cons_zero, Option.bind_eq_bind, Option.bind_some]
      split
      · exact fixext_eq 1
      · exact fixext_eq 2
      · exact fixext_eq 4
      · exact fixext_eq 8
      · exact fixext_eq 16
      · exact ext8_eq
      · exact ext16_eq
      · exact ext32_eq
      · rfl

end Header

section Verdict

-- An ext32 header of the type whose size runs, with the header, past what a `size_t` holds.
def Buffer.Wraps (b : Buffer) : Prop :=
  ∃ b3 b2 b1 b0 rest, b.visible = 0xc9 :: b3 :: b2 :: b1 :: b0 :: 0x21 :: rest ∧
    sizeMax ≤ 6 + beNat [b3, b2, b1, b0]

theorem readUint_some {width n : Nat} {bytes rest : Bytes}
    (h : Msgpack.readUint width bytes = some (n, rest)) :
    ∃ head, head.length = width ∧ bytes = head ++ rest ∧ n = beNat head := by
  obtain ⟨⟨head, tail⟩, htake, heq⟩ := Option.map_eq_some_iff.mp h
  obtain ⟨rfl, rfl⟩ := Prod.mk.inj heq
  refine ⟨head, Msgpack.length_of_takeBytes htake, ?_, rfl⟩
  unfold Msgpack.takeBytes at htake
  split at htake
  · obtain ⟨rfl, rfl⟩ := Prod.mk.inj (Option.some.inj htake)
    exact (List.take_append_drop _ _).symm
  · cases htake

-- The shorter headers give no size that could wrap.
theorem ext32_of_wraps {visible rest : Bytes} {n : Nat}
    (h : extFrame visible = some (n, 0x21 :: rest))
    (hwrap : sizeMax ≤ visible.length - rest.length + n) :
    ∃ b3 b2 b1 b0, visible = 0xc9 :: b3 :: b2 :: b1 :: b0 :: 0x21 :: rest ∧
      n = beNat [b3, b2, b1, b0] := by
  unfold sizeMax at hwrap
  cases visible with
  | nil => cases h
  | cons marker tail =>
      have hshort (k : Nat) (hk : k ≤ 16) (heq : some (k, tail) = some (n, 0x21 :: rest)) :
          False := by
        obtain ⟨rfl, rfl⟩ := Prod.mk.inj (Option.some.inj heq)
        simp only [List.length_cons] at hwrap
        omega
      have hsized (width : Nat) (hwidth : 256 ^ width ≤ 65536)
          (heq : Msgpack.readUint width tail = some (n, 0x21 :: rest)) : False := by
        have hlt := Msgpack.lt_of_readUint heq
        obtain ⟨head, hhead, rfl, -⟩ := readUint_some heq
        have hpow : width < 256 ^ width := Nat.lt_pow_self (by omega)
        simp only [List.length_cons, List.length_append] at hwrap
        omega
      unfold extFrame at h
      dsimp only at h
      split at h
      · exact (hshort 1 (by omega) h).elim
      · exact (hshort 2 (by omega) h).elim
      · exact (hshort 4 (by omega) h).elim
      · exact (hshort 8 (by omega) h).elim
      · exact (hshort 16 (by omega) h).elim
      · exact (hsized 1 (by omega) h).elim
      · exact (hsized 2 (by omega) h).elim
      · rename_i hmarker
        obtain rfl : marker = 0xc9 := UInt8.toNat_inj.mp hmarker
        obtain ⟨head, hhead, rfl, rfl⟩ := readUint_some h
        match head, hhead with
        | [b3, b2, b1, b0], _ => exact ⟨b3, b2, b1, b0, rfl, rfl⟩
      · cases h

theorem extFrame_length {visible rest : Bytes} {n : Nat} {code : UInt8}
    (h : extFrame visible = some (n, code :: rest)) : rest.length + 2 ≤ visible.length := by
  cases visible with
  | nil => cases h
  | cons marker tail =>
      have hfixed (k : Nat) (heq : some (k, tail) = some (n, code :: rest)) :
          rest.length + 2 ≤ (marker :: tail).length := by
        obtain ⟨rfl, rfl⟩ := Prod.mk.inj (Option.some.inj heq)
        simp
      have hsized (width : Nat)
          (heq : Msgpack.readUint width tail = some (n, code :: rest)) :
          rest.length + 2 ≤ (marker :: tail).length := by
        obtain ⟨head, -, rfl, -⟩ := readUint_some heq
        simp only [List.length_cons, List.length_append]
        omega
      unfold extFrame at h
      dsimp only at h
      split at h
      · exact hfixed 1 h
      · exact hfixed 2 h
      · exact hfixed 4 h
      · exact hfixed 8 h
      · exact hfixed 16 h
      · exact hsized 1 h
      · exact hsized 2 h
      · exact hsized 4 h
      · cases h

variable {hmac : Hmac} {client : IoTClient}

-- A buffer is refused with nothing changed, or the code goes on to decrypt.
theorem decrypt_refuses_iff {visible tail : Bytes} :
    client.decryptKVResponseIfEncrypted hmac ⟨visible ++ tail, visible.length⟩ =
        some (false, ⟨visible ++ tail, visible.length⟩) ↔
      ∀ n rest, extFrame visible = some (n, 0x21 :: rest) →
        visible.length < sizeAdd (visible.length - rest.length) n := by
  unfold decryptKVResponseIfEncrypted
  by_cases hlen : visible.length < 2
  · rw [if_pos hlen]
    refine iff_of_true rfl ?_
    intro n rest hframe
    have hlength := extFrame_length hframe
    omega
  · rw [if_neg hlen, readHeader_eq (by omega)]
    simp only [Option.bind_eq_bind, Option.bind_some]
    match hframe : extFrame visible with
    | none =>
        refine iff_of_true rfl ?_
        intro n rest h
        cases h
    | some (n, []) =>
        refine iff_of_true rfl ?_
        intro n rest h
        cases h
    | some (n, code :: rest) =>
        unfold headerOf
        dsimp only
        by_cases htype : code = 0x21
        · subst htype
          rw [if_neg (by decide)]
          by_cases hroom : sizeAdd (visible.length - rest.length) n > visible.length
          · rw [if_pos hroom]
            refine iff_of_true rfl ?_
            intro n' rest' h
            obtain ⟨rfl, hrest⟩ := Prod.mk.inj (Option.some.inj h)
            obtain rfl := (List.cons.inj hrest).2
            exact hroom
          · rw [if_neg hroom]
            refine iff_of_false ?_ ?_
            · intro h
              simp [Option.bind_eq_some_iff] at h
            · intro h
              exact hroom (h n rest rfl)
        · rw [if_pos ?_]
          · refine iff_of_true rfl ?_
            intro n' rest' h
            obtain ⟨rfl, hrest⟩ := Prod.mk.inj (Option.some.inj h)
            exact absurd (List.cons.inj hrest).1 htype
          · intro hsame
            have hback := congrArg Int8.toUInt8 hsame
            rw [UInt8.toUInt8_toInt8] at hback
            exact htype hback

-- So a buffer without the extension is refused exactly when its size does not wrap.
theorem refused_iff {visible tail : Bytes} (hsize : (visible ++ tail).length < sizeMax)
    (hnone : ¬ BeginsWithExt visible) :
    client.decryptKVResponseIfEncrypted hmac ⟨visible ++ tail, visible.length⟩ =
        some (false, ⟨visible ++ tail, visible.length⟩) ↔
      ¬ Buffer.Wraps ⟨visible ++ tail, visible.length⟩ := by
  rw [decrypt_refuses_iff]
  have hvisible : Buffer.visible ⟨visible ++ tail, visible.length⟩ = visible :=
    List.take_left
  rw [List.length_append] at hsize
  constructor
  · rintro hrefused ⟨b3, b2, b1, b0, rest, heq, hwrap⟩
    rw [hvisible] at heq
    have hframe : extFrame visible = some (beNat [b3, b2, b1, b0], 0x21 :: rest) := by
      rw [heq]
      simp [extFrame, Msgpack.readUint, Msgpack.takeBytes]
    have hover := hrefused _ _ hframe
    have hlt := Msgpack.beNat_lt [b3, b2, b1, b0]
    have hlength : visible.length = rest.length + 6 := by rw [heq]; rfl
    unfold sizeAdd sizeMax at *
    simp only [List.length_cons, List.length_nil] at hlt
    omega
  · intro hfits n rest hframe
    by_contra hover
    have hshort : ¬ n ≤ rest.length := fun hroom =>
      hnone (beginsWithExt_iff.mpr ⟨n, rest, hframe, hroom⟩)
    have hlength := extFrame_length hframe
    have hwrap : sizeMax ≤ visible.length - rest.length + n := by
      by_contra hsmall
      unfold sizeAdd at hover
      rw [Nat.mod_eq_of_lt (by omega)] at hover
      omega
    obtain ⟨b3, b2, b1, b0, heq, rfl⟩ := ext32_of_wraps hframe hwrap
    refine hfits ⟨b3, b2, b1, b0, rest, by rw [hvisible, heq], ?_⟩
    have hsix : visible.length = rest.length + 6 := by rw [heq]; rfl
    omega

theorem extFrame_of_extHeader {n : Nat} {header : Bytes} (h : Msgpack.extHeader n = some header)
    (rest : Bytes) : extFrame (header ++ rest) = some (n, rest) := by
  unfold Msgpack.extHeader at h
  split at h
  · obtain rfl := Option.some.inj h
    rfl
  · obtain rfl := Option.some.inj h
    rfl
  · obtain rfl := Option.some.inj h
    rfl
  · obtain rfl := Option.some.inj h
    rfl
  · obtain rfl := Option.some.inj h
    rfl
  split at h
  · obtain rfl := Option.some.inj h
    exact Msgpack.readUint_beBytes 1 n (by omega) rest
  split at h
  · obtain rfl := Option.some.inj h
    exact Msgpack.readUint_beBytes 2 n (by omega) rest
  split at h
  · obtain rfl := Option.some.inj h
    exact Msgpack.readUint_beBytes 4 n (by omega) rest
  · cases h

theorem extHeader_length {n : Nat} {header : Bytes} (h : Msgpack.extHeader n = some header) :
    header.length ≤ 5 := by
  unfold Msgpack.extHeader at h
  split at h
  iterate 5
    · obtain rfl := Option.some.inj h
      simp
  split at h
  · obtain rfl := Option.some.inj h
    simp
  split at h
  · obtain rfl := Option.some.inj h
    simp
  split at h
  · obtain rfl := Option.some.inj h
    simp
  · cases h

-- What the server masked under the nonce comes out at the front of the buffer.
theorem decrypt_body {secret header ciphertext tail : Bytes}
    (hdigest : ∀ key message, (hmac key message).length = 32)
    (hsecret : client.secretBytes = some secret)
    (hheader : Msgpack.extHeader ciphertext.length = some header)
    (hroom : ciphertext.length ≤ 8192) :
    ∃ rest, client.decryptKVResponseIfEncrypted hmac
        ⟨header ++ 0x21 :: ciphertext ++ tail, (header ++ 0x21 :: ciphertext).length⟩ =
      some (true, ⟨xorBytes ciphertext
        (fullKeystream hmac secret client.lastResponseTs.toNat) ++ rest, ciphertext.length⟩) := by
  have hframe := extFrame_of_extHeader hheader (0x21 :: ciphertext)
  have hlength := extFrame_length hframe
  have hshort := extHeader_length hheader
  have htotal : (header ++ 0x21 :: ciphertext).length = header.length + 1 + ciphertext.length := by
    simp only [List.length_append, List.length_cons]
    omega
  have hheaderLen : (header ++ 0x21 :: ciphertext).length - ciphertext.length =
      header.length + 1 := by
    omega
  have hfits : sizeAdd (header.length + 1) ciphertext.length =
      (header ++ 0x21 :: ciphertext).length := by
    unfold sizeAdd sizeMax
    rw [Nat.mod_eq_of_lt (by omega)]
    omega
  have hmemory : header ++ 0x21 :: ciphertext ++ tail =
      (header ++ [0x21]) ++ (ciphertext ++ tail) := by
    simp
  have hfront : (header ++ [0x21]).length = header.length + 1 := by simp
  have hplain : (xorBytes ciphertext
      (fullKeystream hmac secret client.lastResponseTs.toNat)).length = ciphertext.length := by
    have hstream := @length_fullKeystream hmac secret client.lastResponseTs.toNat
      (blocksOf32 hdigest)
    simp only [xorBytes, List.length_zipWith]
    omega
  have hlen : ¬ (header ++ 0x21 :: ciphertext).length < 2 := by omega
  unfold decryptKVResponseIfEncrypted
  rw [if_neg hlen, readHeader_eq (by omega), hframe]
  simp only [Option.bind_eq_bind, Option.bind_some, headerOf, hheaderLen, hfits, hmemory]
  rw [if_neg (by decide), if_neg (Nat.lt_irrefl _), ← hfront, List.drop_left, List.take_left,
    kvencXor_eq hdigest hsecret hroom]
  simp only [Option.bind_some, memmove]
  rw [if_pos (by simp only [List.length_append, hplain]; omega), List.drop_left,
    ← hplain, List.take_left]
  exact ⟨_, rfl⟩

theorem packb_ext {ciphertext body : Bytes}
    (h : Msgpack.packb (.ext kvencExtType ciphertext) = some body) :
    ∃ header, Msgpack.extHeader ciphertext.length = some header ∧
      body = header ++ 0x21 :: ciphertext := by
  replace h : Msgpack.encodeExt kvencExtType ciphertext = some body := h
  simp only [Msgpack.encodeExt, Option.bind_eq_bind, Option.bind_eq_some_iff,
    Option.some.injEq] at h
  obtain ⟨header, hheader, rfl⟩ := h
  exact ⟨header, hheader, rfl⟩

-- Every answer that the server encrypts is decrypted, and of the other buffers those are refused
-- whose size does not wrap.
theorem decrypt_iff (hdigest : ∀ key message, (hmac key message).length = 32) {secret : Secret}
    (hclient : client.secretHex = secret.text) :
    (∀ (context : Context) request plaintext (nonce : Int) response tail,
      context.secretHex = client.secretHex → nonce = client.lastResponseTs.toNat →
        signedEncryptedResponse hmac context request plaintext nonce = .ok response →
          ∃ rest, client.decryptKVResponseIfEncrypted hmac
              ⟨response.body ++ tail, response.body.length⟩ =
            some (true, ⟨plaintext ++ rest, plaintext.length⟩)) ∧
      ∀ b : Buffer, b.Valid → ¬ BeginsWithExt b.visible →
        (client.decryptKVResponseIfEncrypted hmac b = some (false, b) ↔ ¬ b.Wraps) := by
  constructor
  · intro context request plaintext nonce response tail hcontext hnonce h
    obtain ⟨ciphertext, hcipher, hpack, -, -⟩ := signedEncryptedResponse_body h
    obtain ⟨header, hheader, hbody⟩ := packb_ext hpack
    have hsecret : client.secretBytes = some secret.bytes := by
      have hread := @Implementation.secretBytes_text secret client.lastResponseTs
      rwa [← hclient] at hread
    rw [hcontext, hclient] at hcipher
    have hlength : plaintext.length ≤ 8160 :=
      ((kvencXor_ok_iff hmac (blocksOf32 hdigest) (by rw [secret.reads]; rfl)).mp ⟨_, hcipher⟩).2
    rw [hnonce] at hcipher
    have hmasked := kvencXor_full secret.reads hcipher
    have hstream := @length_fullKeystream hmac secret.bytes client.lastResponseTs.toNat
      (blocksOf32 hdigest)
    have hsame : ciphertext.length = plaintext.length := by
      rw [hmasked]
      simp only [xorBytes, List.length_zipWith]
      omega
    obtain ⟨rest, hdecrypt⟩ := @decrypt_body hmac client secret.bytes header ciphertext tail hdigest
      hsecret hheader (by omega)
    refine ⟨rest, ?_⟩
    have hback : xorBytes ciphertext
        (fullKeystream hmac secret.bytes client.lastResponseTs.toNat) = plaintext := by
      rw [hmasked]
      exact xorBytes_twice (by omega)
    rw [hback, hsame] at hdecrypt
    rw [hbody, hdecrypt]
  · intro b hvalid hnone
    have hinside := hvalid.inside
    have hmemory : b.memory = b.visible ++ b.memory.drop b.len :=
      (List.take_append_drop b.len b.memory).symm
    have hlen : b.len = b.visible.length := by
      simp only [Buffer.visible, List.length_take]
      omega
    have hb : b = ⟨b.visible ++ b.memory.drop b.len, b.visible.length⟩ := by
      rw [← hmemory, ← hlen]
    have hsized : (b.visible ++ b.memory.drop b.len).length < sizeMax := by
      rw [← hmemory]
      exact hvalid.sized
    have hrefused := @refused_iff hmac client b.visible (b.memory.drop b.len) hsized hnone
    rwa [← hb] at hrefused

def zeroClient : IoTClient := ⟨zeroSecret.text, 1700000000⟩

theorem decrypt_echo :
    (∀ (context : Context) request plaintext (nonce : Int) response tail,
      context.secretHex = zeroClient.secretHex → nonce = zeroClient.lastResponseTs.toNat →
        signedEncryptedResponse echo context request plaintext nonce = .ok response →
          ∃ rest, zeroClient.decryptKVResponseIfEncrypted echo
              ⟨response.body ++ tail, response.body.length⟩ =
            some (true, ⟨plaintext ++ rest, plaintext.length⟩)) ∧
      ∀ b : Buffer, b.Valid → ¬ BeginsWithExt b.visible →
        (zeroClient.decryptKVResponseIfEncrypted echo b = some (false, b) ↔ ¬ b.Wraps) :=
  @decrypt_iff echo zeroClient length_echo zeroSecret rfl

-- Six bytes that announce four gigabytes.
def announced : Buffer := ⟨[0xc9, 0xff, 0xff, 0xff, 0xff, 0x21], 6⟩

theorem announced_runs_over : announced.Valid ∧ ¬ BeginsWithExt announced.visible ∧
    zeroClient.decryptKVResponseIfEncrypted echo announced = none := by
  refine ⟨⟨by decide, by decide⟩, ?_, rfl⟩
  rw [beginsWithExt_iff]
  rintro ⟨n, rest, hframe, hroom⟩
  obtain ⟨rfl, hrest⟩ := Prod.mk.inj (Option.some.inj hframe)
  obtain rfl := (List.cons.inj hrest).2
  simp [beNat] at hroom

end Verdict

end Stra2us.IoTClient
