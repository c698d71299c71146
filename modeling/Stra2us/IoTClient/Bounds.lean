import Stra2us.IoTClient.Decrypt

namespace Stra2us.IoTClient

open Foundation Server Kv Kv.Implementation

section Secret

theorem exists_mapM_range {α : Type} {f : Nat → Option α} {count : Nat}
    (h : ∀ i < count, (f i).isSome) : ∃ values, (List.range count).mapM f = some values := by
  have hall : ∀ is : List Nat, (∀ i ∈ is, i < count) → ∃ values, is.mapM f = some values := by
    intro is his
    induction is with
    | nil => exact ⟨[], rfl⟩
    | cons i rest ih =>
        obtain ⟨value, hvalue⟩ := Option.isSome_iff_exists.mp (h i (his i (by simp)))
        obtain ⟨values, hvalues⟩ := ih fun j hj => his j (List.mem_cons_of_mem _ hj)
        exact ⟨value :: values, by rw [List.mapM_cons, hvalue, hvalues]; rfl⟩
  exact hall (List.range count) fun i hi => List.mem_range.mp hi

-- All 64 digits are there to be read.
theorem exists_secretBytes {client : IoTClient} (h : 64 ≤ client.secretHex.length) :
    ∃ secret, client.secretBytes = some secret := by
  refine exists_mapM_range ?_
  intro i hi
  have hchar (j : Nat) (hj : j < client.secretHex.length) :
      (charAt client.secretHex j).isSome := by
    unfold charAt
    rw [if_neg (by omega), List.getElem?_eq_getElem hj]
    rfl
  obtain ⟨high, hhigh⟩ := Option.isSome_iff_exists.mp (hchar (i * 2) (by omega))
  obtain ⟨low, hlow⟩ := Option.isSome_iff_exists.mp (hchar (i * 2 + 1) (by omega))
  unfold secretByte
  rw [hhigh, hlow]
  rfl

end Secret

section Cipher

variable {hmac : Hmac} {secret : Bytes} {nonce : UInt32} {len : Nat}

theorem xorBlock_within {block data : Bytes} {pos blockEnd : Nat}
    (hend : blockEnd ≤ data.length) (hblock : blockEnd - pos ≤ block.length) :
    ∃ out, out.length = data.length ∧
      ∀ tail, xorBlock block pos blockEnd (data ++ tail) = some (out ++ tail) := by
  by_cases hsame : blockEnd ≤ pos
  · refine ⟨data, rfl, ?_⟩
    intro tail
    unfold xorBlock
    rw [if_pos hsame]
  · refine ⟨data.take pos ++ xorBytes ((data.drop pos).take (blockEnd - pos)) block ++
      data.drop blockEnd, ?_, ?_⟩
    · simp only [xorBytes, List.length_append, List.length_zipWith, List.length_take,
        List.length_drop]
      omega
    · intro tail
      unfold xorBlock
      rw [if_neg hsame, if_pos (by rw [List.length_append]; omega),
        List.take_append_of_le_length (by omega), List.drop_append_of_le_length (by omega),
        List.drop_append_of_le_length hend,
        List.take_append_of_le_length (by rw [List.length_drop]; omega)]
      simp only [List.append_assoc]

-- The loop stays in front of `len`: by induction on the turns, the position is where the
-- counter says or all is done.
theorem kvencLoop_within (hdigest : ∀ key message, (hmac key message).length = 32)
    {turns k pos : Nat} {data : Bytes} (hturns : turns + k = 257)
    (hpos : (k < 256 ∧ pos = 32 * k) ∨ (k ≤ 256 ∧ len ≤ pos)) (hlen : len ≤ data.length) :
    ∃ out, out.length = data.length ∧ ∀ tail,
      kvencLoop hmac secret nonce len turns (UInt8.ofNat k) pos (data ++ tail) =
        some (out ++ tail) := by
  induction turns generalizing k pos data with
  | zero => omega
  | succ turns ih =>
      by_cases hmore : pos < len
      · have hk : k < 256 ∧ pos = 32 * k := by omega
        let block := hmac secret (kLabel ++ nonceBytes nonce ++ [UInt8.ofNat k])
        have hblock : block.length = 32 := hdigest _ _
        have hadd : sizeAdd pos 32 = pos + 32 := by
          unfold sizeAdd sizeMax
          rw [Nat.mod_eq_of_lt (by omega)]
        obtain ⟨masked, hmasked, hxor⟩ := @xorBlock_within block data pos
          (min (pos + 32) len) (by omega) (by omega)
        have hstep (tail : Bytes) :
            kvencLoop hmac secret nonce len (turns + 1) (UInt8.ofNat k) pos (data ++ tail) =
              if UInt8.ofNat k + 1 = 0 ∧ min (pos + 32) len < len then some (masked ++ tail)
              else kvencLoop hmac secret nonce len turns (UInt8.ofNat k + 1) (min (pos + 32) len)
                (masked ++ tail) := by
          rw [kvencLoop, if_pos hmore]
          change (xorBlock block pos (min (sizeAdd pos 32) len) (data ++ tail)).bind _ = _
          rw [hadd, hxor, Option.bind_some]
        by_cases hwrap : UInt8.ofNat k + 1 = 0 ∧ min (pos + 32) len < len
        · refine ⟨masked, hmasked, ?_⟩
          intro tail
          rw [hstep, if_pos hwrap]
        · have hnext : UInt8.ofNat k + 1 = UInt8.ofNat (k + 1) := (UInt8.ofNat_add k 1).symm
          have hzero : UInt8.ofNat k + 1 = 0 ↔ k = 255 := by
            rw [← UInt8.toNat_inj]
            simp only [UInt8.toNat_add, UInt8.toNat_ofNat', UInt8.reduceToNat]
            omega
          rw [hzero] at hwrap
          obtain ⟨out, hout, hrun⟩ := @ih (k + 1) (min (pos + 32) len) masked (by omega)
            (by omega) (by omega)
          refine ⟨out, hout.trans hmasked, ?_⟩
          intro tail
          rw [hstep, if_neg (by rw [hzero]; exact hwrap), hnext, hrun]
      · refine ⟨data, rfl, ?_⟩
        intro tail
        rw [kvencLoop, if_neg hmore]

theorem kvencXor_within (hdigest : ∀ key message, (hmac key message).length = 32)
    {client : IoTClient} (hsecret : 64 ≤ client.secretHex.length) {data : Bytes}
    (hlen : len ≤ data.length) :
    ∃ out, out.length = data.length ∧
      ∀ tail, client.kvencXor hmac nonce (data ++ tail) len = some (out ++ tail) := by
  obtain ⟨secret, hread⟩ := exists_secretBytes hsecret
  obtain ⟨out, hout, hrun⟩ := @kvencLoop_within hmac secret nonce len hdigest 257 0 0 data
    rfl (by omega) hlen
  refine ⟨out, hout, ?_⟩
  intro tail
  unfold kvencXor
  rw [hread]
  exact hrun tail

-- Whatever it is told of the length, the loop makes no memory.
theorem kvencLoop_length {turns pos : Nat} {counter : UInt8} {data out : Bytes}
    (h : kvencLoop hmac secret nonce len turns counter pos data = some out) :
    out.length ≤ data.length := by
  induction turns generalizing counter pos data with
  | zero => cases h
  | succ turns ih =>
      rw [kvencLoop] at h
      split at h
      · obtain ⟨masked, hxor, hrest⟩ := Option.bind_eq_some_iff.mp h
        have hmasked : masked.length ≤ data.length := by
          unfold xorBlock at hxor
          split at hxor
          · rw [Option.some.inj hxor]
          · split at hxor
            · rw [← Option.some.inj hxor]
              simp only [xorBytes, List.length_append, List.length_zipWith, List.length_take,
                List.length_drop]
              omega
            · cases hxor
        split at hrest
        · rw [← Option.some.inj hrest]
          exact hmasked
        · exact (ih hrest).trans hmasked
      · rw [Option.some.inj h]

end Cipher

section Confined

variable {hmac : Hmac} {client : IoTClient}

theorem memmove_within {memory : Bytes} {source count : Nat}
    (h : source + count ≤ memory.length) :
    ∃ out, out.length = memory.length ∧
      ∀ tail, memmove (memory ++ tail) source count = some (out ++ tail) := by
  refine ⟨(memory.drop source).take count ++ memory.drop count, ?_, ?_⟩
  · simp only [List.length_append, List.length_take, List.length_drop]
    omega
  · intro tail
    unfold memmove
    rw [if_pos (by rw [List.length_append]; omega), List.drop_append_of_le_length (by omega),
      List.drop_append_of_le_length (by omega),
      List.take_append_of_le_length (by rw [List.length_drop]; omega)]
    simp only [List.append_assoc]

-- Every access is in front of `*len`: on an object that ends there, where one behind it has no
-- outcome, the call does the same, and what stands behind is as it was.
def Confined (hmac : Hmac) (client : IoTClient) (b : Buffer) : Prop :=
  ∃ (done : Bool) (after : Buffer),
    client.decryptKVResponseIfEncrypted hmac ⟨b.visible, b.len⟩ = some (done, after) ∧
    client.decryptKVResponseIfEncrypted hmac b =
      some (done, ⟨after.memory ++ b.memory.drop b.len, after.len⟩) ∧
    after.memory.length = b.len ∧ after.len ≤ b.len

theorem fits_of_extFrame {visible rest : Bytes} {n : Nat}
    (h : extFrame visible = some (n, 0x21 :: rest))
    (hwraps : ¬ Buffer.Wraps ⟨visible, visible.length⟩)
    (hroom : ¬ sizeAdd (visible.length - rest.length) n > visible.length) :
    visible.length - rest.length + n ≤ visible.length := by
  have hsmall : visible.length - rest.length + n < sizeMax := by
    by_contra hwrap
    obtain ⟨b3, b2, b1, b0, heq, rfl⟩ := ext32_of_wraps h (by omega)
    refine hwraps ⟨b3, b2, b1, b0, rest, ?_, ?_⟩
    · rw [Buffer.visible, List.take_length, heq]
    · have hsix : visible.length = rest.length + 6 := by rw [heq]; rfl
      omega
  unfold sizeAdd at hroom
  rw [Nat.mod_eq_of_lt hsmall] at hroom
  omega

theorem decrypt_within (hdigest : ∀ key message, (hmac key message).length = 32)
    (hsecret : 64 ≤ client.secretHex.length) {visible : Bytes}
    (hwraps : ¬ Buffer.Wraps ⟨visible, visible.length⟩) :
    ∃ (done : Bool) (out : Bytes) (len : Nat), out.length = visible.length ∧
      len ≤ visible.length ∧ ∀ tail, client.decryptKVResponseIfEncrypted hmac
        ⟨visible ++ tail, visible.length⟩ = some (done, ⟨out ++ tail, len⟩) := by
  have hrefused (h : ∀ tail, client.decryptKVResponseIfEncrypted hmac
      ⟨visible ++ tail, visible.length⟩ = some (false, ⟨visible ++ tail, visible.length⟩)) :
      ∃ (done : Bool) (out : Bytes) (len : Nat), out.length = visible.length ∧
        len ≤ visible.length ∧ ∀ tail, client.decryptKVResponseIfEncrypted hmac
          ⟨visible ++ tail, visible.length⟩ = some (done, ⟨out ++ tail, len⟩) :=
    ⟨false, visible, visible.length, rfl, Nat.le_refl _, h⟩
  by_cases hdecrypts : ∀ n rest, extFrame visible = some (n, 0x21 :: rest) →
      visible.length < sizeAdd (visible.length - rest.length) n
  · exact hrefused fun tail => decrypt_refuses_iff.mpr hdecrypts
  · push Not at hdecrypts
    obtain ⟨n, rest, hframe, hroom⟩ := hdecrypts
    have hlength := extFrame_length hframe
    have hfits := fits_of_extFrame hframe hwraps (by omega)
    let headerLen := visible.length - rest.length
    obtain ⟨masked, hmasked, hxor⟩ := @kvencXor_within hmac client.lastResponseTs n hdigest client
      hsecret (visible.drop headerLen) (by rw [List.length_drop]; omega)
    have hfront : (visible.take headerLen ++ masked).length = visible.length := by
      simp only [List.length_append, List.length_take, hmasked, List.length_drop]
      omega
    refine ⟨true, ?_⟩
    obtain ⟨out, hout, hmove⟩ := @memmove_within (visible.take headerLen ++ masked) headerLen n
      (by omega)
    refine ⟨out, n, hout.trans hfront, by omega, ?_⟩
    intro tail
    have hlen : ¬ visible.length < 2 := by omega
    unfold decryptKVResponseIfEncrypted
    rw [if_neg hlen, readHeader_eq (by omega), hframe]
    simp only [Option.bind_eq_bind, Option.bind_some, headerOf]
    rw [if_neg (by decide), if_neg (by omega), List.drop_append_of_le_length (by omega),
      List.take_append_of_le_length (by omega), hxor tail, Option.bind_some, ← List.append_assoc,
      hmove tail]
    rfl

-- Of a size that wraps nothing comes: the move runs past every object.
theorem decrypt_wraps {visible tail : Bytes} (hsize : (visible ++ tail).length < sizeMax)
    (hwraps : Buffer.Wraps ⟨visible, visible.length⟩) :
    client.decryptKVResponseIfEncrypted hmac ⟨visible ++ tail, visible.length⟩ = none := by
  obtain ⟨b3, b2, b1, b0, rest, heq, hwrap⟩ := hwraps
  rw [Buffer.visible, List.take_length] at heq
  have hsix : visible.length = rest.length + 6 := by rw [heq]; rfl
  have hheader : visible.length - rest.length = 6 := by omega
  have hframe : extFrame visible = some (beNat [b3, b2, b1, b0], 0x21 :: rest) := by
    rw [heq]
    simp [extFrame, Msgpack.readUint, Msgpack.takeBytes]
  have hlt := Msgpack.beNat_lt [b3, b2, b1, b0]
  simp only [List.length_cons, List.length_nil] at hlt
  have hroom : ¬ sizeAdd 6 (beNat [b3, b2, b1, b0]) > visible.length := by
    unfold sizeAdd sizeMax at *
    omega
  have hlen : ¬ visible.length < 2 := by omega
  unfold decryptKVResponseIfEncrypted
  rw [if_neg hlen, readHeader_eq (by omega), hframe]
  simp only [Option.bind_eq_bind, Option.bind_some, headerOf, hheader]
  rw [if_neg (by decide), if_neg hroom, Option.bind_eq_none_iff]
  intro masked hxor
  obtain ⟨secret, -, hloop⟩ := Option.bind_eq_some_iff.mp hxor
  have hmasked := kvencLoop_length hloop
  unfold memmove
  rw [if_neg ?_]
  · rfl
  · simp only [List.length_append, List.length_take, List.length_drop] at hmasked hsize ⊢
    omega

-- The accesses stay in front of `*len` exactly when the size does not wrap.
theorem confined_iff (hdigest : ∀ key message, (hmac key message).length = 32)
    (hsecret : 64 ≤ client.secretHex.length) {b : Buffer} (hvalid : b.Valid) :
    Confined hmac client b ↔ ¬ b.Wraps := by
  have hinside := hvalid.inside
  have hsplit : b.memory = b.visible ++ b.memory.drop b.len :=
    (List.take_append_drop b.len b.memory).symm
  have hlen : b.len = b.visible.length := by
    simp only [Buffer.visible, List.length_take]
    omega
  have hb : b = ⟨b.visible ++ b.memory.drop b.len, b.visible.length⟩ := by
    rw [← hsplit, ← hlen]
  have hsized : (b.visible ++ b.memory.drop b.len).length < sizeMax := by
    rw [← hsplit]
    exact hvalid.sized
  have hsame : b.Wraps ↔ Buffer.Wraps ⟨b.visible, b.visible.length⟩ := by
    unfold Buffer.Wraps
    rw [Buffer.visible.eq_def ⟨b.visible, b.visible.length⟩, List.take_length]
  rw [hsame]
  constructor
  · rintro ⟨done, after, -, hrun, -⟩ hwraps
    have hnone := @decrypt_wraps hmac client b.visible (b.memory.drop b.len) hsized hwraps
    rw [← hb, hrun] at hnone
    cases hnone
  · intro hwraps
    obtain ⟨done, out, len, hout, hle, hrun⟩ := @decrypt_within hmac client hdigest hsecret
      b.visible hwraps
    have hcut := hrun []
    have hfull := hrun (b.memory.drop b.len)
    rw [List.append_nil, List.append_nil, ← hlen] at hcut
    rw [← hb] at hfull
    exact ⟨done, ⟨out, len⟩, hcut, hfull, hout.trans hlen.symm, by rw [hlen]; exact hle⟩

theorem confined_plain : Confined echo zeroClient ⟨[0xd4, 0x21, 0x00], 3⟩ :=
  (@confined_iff echo zeroClient length_echo (by decide) ⟨[0xd4, 0x21, 0x00], 3⟩
    ⟨by decide, by decide⟩).mpr (by
      rintro ⟨b3, b2, b1, b0, rest, heq, -⟩
      exact absurd (List.cons.inj heq).1 (by decide))

-- Six bytes that announce more than there is memory.
theorem announced_not_confined : announced.Valid ∧ ¬ Confined echo zeroClient announced := by
  refine ⟨⟨by decide, by decide⟩, ?_⟩
  rintro ⟨done, after, -, hrun, -⟩
  cases hrun

end Confined

end Stra2us.IoTClient
