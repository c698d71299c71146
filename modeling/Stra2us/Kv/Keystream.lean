import Stra2us.Foundation.BlockStream
import Stra2us.Server.Security

namespace Stra2us.Kv

open Foundation Server

-- The HMAC inputs of the first blocks of a keystream.
def keystreamInputs (nonce blocks : Nat) : List Bytes :=
  (List.range blocks).map (kvencBlockInput nonce)

def keystreamBlock (hmac : Hmac) (secret : Bytes) (nonce counter : Nat) : Bytes :=
  hmac secret (kvencBlockInput nonce counter)

-- A block for every value of the counter's byte.
def fullKeystream (hmac : Hmac) (secret : Bytes) (nonce : Nat) : Bytes :=
  blocksFrom (keystreamBlock hmac secret nonce) 0 256

-- Every block of a keystream has the length of a SHA-256 digest.
def BlocksOf32 (hmac : Hmac) : Prop :=
  ∀ secret nonce counter, (keystreamBlock hmac secret nonce counter).length = 32

theorem blocksOf32 {hmac : Hmac} (hdigest : ∀ key message, (hmac key message).length = 32) :
    BlocksOf32 hmac :=
  fun _ _ _ => hdigest _ _

section Inputs

theorem kvencBlockInput_injective {m n a b : Nat} (hm : m < 2 ^ 32) (hn : n < 2 ^ 32)
    (ha : a < 256) (hb : b < 256) (h : kvencBlockInput m a = kvencBlockInput n b) :
    m = n ∧ a = b := by
  simp only [kvencBlockInput, List.append_assoc, List.append_cancel_left_eq] at h
  obtain ⟨hnonce, hcounter⟩ := List.append_inj h (by simp)
  constructor
  · have hback := congrArg beNat hnonce
    rwa [beNat_beBytes 4 m (by omega), beNat_beBytes 4 n (by omega)] at hback
  · have hbyte := congrArg UInt8.toNat (List.cons.inj hcounter).1
    simp only [UInt8.toNat_ofNat'] at hbyte
    omega

theorem mem_keystreamInputs {nonce blocks : Nat} {input : Bytes} :
    input ∈ keystreamInputs nonce blocks ↔ ∃ a < blocks, kvencBlockInput nonce a = input := by
  simp [keystreamInputs]

theorem keystreamInputs_nodup {nonce blocks : Nat} (hn : nonce < 2 ^ 32) (hb : blocks ≤ 256) :
    (keystreamInputs nonce blocks).Nodup := by
  refine List.Nodup.map_on ?_ List.nodup_range
  intro a ha b hb' h
  simp only [List.mem_range] at ha hb'
  exact (kvencBlockInput_injective hn hn (by omega) (by omega) h).2

-- Two nonces share no input, however many blocks each is used for.
theorem keystreamInputs_disjoint {m n blocks blocks' : Nat} (hm : m < 2 ^ 32) (hn : n < 2 ^ 32)
    (hb : blocks ≤ 256) (hb' : blocks' ≤ 256) (hne : m ≠ n) :
    (keystreamInputs m blocks).Disjoint (keystreamInputs n blocks') := by
  intro input h h'
  obtain ⟨a, ha, rfl⟩ := mem_keystreamInputs.mp h
  obtain ⟨b, hb, he⟩ := mem_keystreamInputs.mp h'
  exact hne (kvencBlockInput_injective hn hm (by omega) (by omega) he).1.symm

end Inputs

section Blocks

variable (hmac : Hmac) (secret : Bytes) (nonce length : Nat)

-- The loop appends the blocks of consecutive counters and stops below counter 255.
theorem kvencBlocks_eq {turns counter : Nat} {out result : Bytes} (hc : counter ≤ 255)
    (h : kvencBlocks hmac secret nonce length turns counter out = .ok result) :
    ∃ blocks, counter + blocks ≤ 255 ∧ length ≤ result.length ∧
      result = out ++ (List.range blocks).flatMap fun i =>
        hmac secret (kvencBlockInput nonce (counter + i)) := by
  induction turns generalizing counter out with
  | zero => simp [kvencBlocks] at h
  | succ turns ih =>
      unfold kvencBlocks at h
      by_cases hlen : out.length < length
      · simp only [hlen, ite_true] at h
        by_cases hover : counter + 1 > 255
        · simp [hover] at h
        · simp only [hover, ite_false] at h
          obtain ⟨blocks, hle, henough, heq⟩ := ih (by omega) h
          refine ⟨blocks + 1, by omega, henough, ?_⟩
          rw [heq, List.range_succ_eq_map, List.flatMap_cons, List.flatMap_map, List.append_assoc]
          simp [Nat.add_assoc, Nat.add_comm 1]
      · simp only [hlen, ite_false, Except.ok.injEq] at h
        exact ⟨0, by omega, by rw [← h]; omega, by simp [h]⟩

theorem kvencKeystream_eq {secretHex : Text} {nonce : Int} {keystream : Bytes}
    (h : kvencKeystream hmac secretHex nonce length = .ok keystream) :
    ∃ secret n blocks, fromHex secretHex = some secret ∧ nonce = (n : Nat) ∧ n < 2 ^ 32 ∧
      blocks ≤ 255 ∧
      keystream = ((keystreamInputs n blocks).flatMap (hmac secret)).take length ∧
      keystream.length = length := by
  unfold kvencKeystream at h
  cases hs : fromHex secretHex with
  | none => simp [hs] at h
  | some secret =>
      simp only [hs] at h
      by_cases hn : 0 ≤ nonce ∧ nonce < 2 ^ 32
      · rw [if_pos hn] at h
        cases hb : kvencBlocks hmac secret nonce.toNat length 257 0 [] with
        | error exn =>
            rw [hb] at h
            cases h
        | ok out =>
            rw [hb] at h
            replace h : out.take length = keystream := Except.ok.inj h
            obtain ⟨blocks, hle, henough, heq⟩ :=
              kvencBlocks_eq hmac secret nonce.toNat length (by omega) hb
            refine ⟨secret, nonce.toNat, blocks, rfl, by omega, by omega, by omega, ?_, ?_⟩
            · rw [← h, heq]
              simp [keystreamInputs, List.flatMap_map]
            · rw [← h, List.length_take]
              omega
      · rw [if_neg hn] at h
        cases h

-- A digest of 32 bytes gives 32 bytes a block, and the last block is never handed out.
theorem kvencBlocks_ok_iff {turns counter : Nat} {out : Bytes}
    (hblocks : BlocksOf32 hmac) (hout : out.length = 32 * counter)
    (hc : counter ≤ 255) (hturns : 256 < turns + counter) :
    (∃ result, kvencBlocks hmac secret nonce length turns counter out = .ok result) ↔
      length ≤ 8160 := by
  induction turns generalizing counter out with
  | zero => omega
  | succ turns ih =>
      unfold kvencBlocks
      by_cases hlen : out.length < length
      · simp only [hlen, ite_true]
        by_cases hover : counter + 1 > 255
        · simp only [hover, ite_true]
          refine iff_of_false (fun ⟨result, h⟩ => nomatch h) ?_
          omega
        · simp only [hover, ite_false]
          refine ih ?_ (by omega) (by omega)
          have hblock : (hmac secret (kvencBlockInput nonce counter)).length = 32 :=
            hblocks secret nonce counter
          rw [List.length_append, hout, hblock]
          omega
      · simp only [hlen, ite_false]
        exact iff_of_true ⟨out, rfl⟩ (by omega)

-- A keystream can be made under a nonce of four bytes, and up to that length.
theorem kvencXor_ok_iff {secretHex : Text} {nonce : Int} {data : Bytes}
    (hblocks : BlocksOf32 hmac)
    (hsecret : (fromHex secretHex).isSome) :
    (∃ ciphertext, kvencXor hmac secretHex nonce data = .ok ciphertext) ↔
      (0 ≤ nonce ∧ nonce < 2 ^ 32) ∧ data.length ≤ 8160 := by
  obtain ⟨secret, hs⟩ := Option.isSome_iff_exists.mp hsecret
  unfold kvencXor kvencKeystream
  rw [hs]
  by_cases hn : 0 ≤ nonce ∧ nonce < 2 ^ 32
  · simp only [if_pos hn]
    rw [← @kvencBlocks_ok_iff hmac secret nonce.toNat data.length 257 0 [] hblocks rfl (by omega)
      (by omega)]
    cases kvencBlocks hmac secret nonce.toNat data.length 257 0 [] with
    | ok out => exact iff_of_true ⟨_, rfl⟩ ⟨hn, out, rfl⟩
    | error exn => exact iff_of_false (fun ⟨_, h⟩ => nomatch h) fun ⟨_, _, h⟩ => nomatch h
  · simp only [if_neg hn]
    exact iff_of_false (fun ⟨_, h⟩ => nomatch h) fun h => hn h.1

theorem keystreamInputs_flatMap (blocks : Nat) :
    (keystreamInputs nonce blocks).flatMap (hmac secret) =
      blocksFrom (keystreamBlock hmac secret nonce) 0 blocks := by
  induction blocks with
  | zero => rfl
  | succ blocks ih =>
      rw [blocksFrom_succ, ← ih, keystreamInputs, List.range_succ]
      simp [keystreamInputs, keystreamBlock]

variable {hmac secret nonce} {secretHex : Text} {data : Bytes}

theorem length_fullKeystream (hblocks : BlocksOf32 hmac) :
    (fullKeystream hmac secret nonce).length = 8192 :=
  length_blocksFrom (hblocks secret nonce) 0 256

-- Whatever the server encrypts it masks with the stream that has all the blocks.
theorem kvencXor_full (hsecret : fromHex secretHex = some secret) {ciphertext : Bytes}
    (h : kvencXor hmac secretHex nonce data = .ok ciphertext) :
    ciphertext = xorBytes data (fullKeystream hmac secret nonce) := by
  unfold kvencXor at h
  cases hstream : kvencKeystream hmac secretHex nonce data.length with
  | error exn =>
      rw [hstream] at h
      cases h
  | ok keystream =>
      rw [hstream] at h
      obtain rfl : xorBytes data keystream = ciphertext := Except.ok.inj h
      obtain ⟨secret', n, blocks, hsecret', hn, -, hblocks, heq, hlength⟩ :=
        kvencKeystream_eq hmac data.length hstream
      obtain rfl := Option.some.inj (hsecret.symm.trans hsecret')
      obtain rfl : nonce = n := by omega
      refine (zipWith_longer ?_ (by omega)).symm
      rw [heq, keystreamInputs_flatMap]
      exact (List.take_prefix _ _).trans (blocksFrom_le 0 (by omega))

theorem xorBytes_twice {stream : Bytes} (hlength : data.length ≤ stream.length) :
    xorBytes (xorBytes data stream) stream = data :=
  zipWith_twice (fun a b => by rw [UInt8.xor_assoc, UInt8.xor_self, UInt8.xor_zero]) hlength

end Blocks

end Stra2us.Kv
