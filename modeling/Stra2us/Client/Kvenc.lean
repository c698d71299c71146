import Stra2us.Kv.Keystream

namespace Stra2us.Client

open Foundation Server Kv

def kvencNonceBytes (nonce : Int) : Except Exn Bytes :=
  if 0 ≤ nonce ∧ nonce < 2 ^ 32 then .ok (beBytes 4 nonce.toNat)
  else .error (.python "OverflowError".toList)

-- `bytes([counter])` is what gives out, at counter 256.
def kvencBlocks (hmac : Hmac) (secret nonceBytes : Bytes) (length : Nat) :
    (turns counter : Nat) → Bytes → Except Exn Bytes
  | 0, _, _ => .error .outOfFuel
  | turns + 1, counter, out =>
      if out.length < length then
        if counter < 256 then
          kvencBlocks hmac secret nonceBytes length turns (counter + 1)
            (out ++ hmac secret (kvencLabel ++ nonceBytes ++ [UInt8.ofNat counter]))
        else .error (.python "ValueError".toList)
      else .ok out

-- `_kvenc_xor`.
def kvencXor (hmac : Hmac) (secret : Bytes) (nonce : Int) (data : Bytes) : Except Exn Bytes := do
  let nonceBytes ← kvencNonceBytes nonce
  let out ← kvencBlocks hmac secret nonceBytes data.length 258 0 []
  .ok (xorBytes data (out.take data.length))

variable {hmac : Hmac} {secret : Bytes} {nonce length : Nat}

-- The loop ends with as many blocks as it takes.
theorem kvencBlocks_eq (hblocks : BlocksOf32 hmac)
    (hlength : length ≤ 8192) {turns counter : Nat} (hturns : turns + counter = 258)
    (hcounter : counter ≤ 256) :
    ∃ blocks ≤ 256, length ≤ blocks * 32 ∧
      kvencBlocks hmac secret (beBytes 4 nonce) length turns counter
          (blocksFrom (keystreamBlock hmac secret nonce) 0 counter) =
        .ok (blocksFrom (keystreamBlock hmac secret nonce) 0 blocks) := by
  induction turns generalizing counter with
  | zero => omega
  | succ turns ih =>
      have hout : (blocksFrom (keystreamBlock hmac secret nonce) 0 counter).length = counter * 32 :=
        length_blocksFrom (hblocks secret nonce) 0 counter
      unfold kvencBlocks
      by_cases hmore : counter * 32 < length
      · rw [hout, if_pos hmore, if_pos (by omega)]
        have hnext : blocksFrom (keystreamBlock hmac secret nonce) 0 counter ++
            hmac secret (kvencLabel ++ beBytes 4 nonce ++ [UInt8.ofNat counter]) =
              blocksFrom (keystreamBlock hmac secret nonce) 0 (counter + 1) := by
          rw [blocksFrom_succ, Nat.zero_add]
          rfl
        rw [hnext]
        exact ih (by omega) (by omega)
      · rw [hout, if_neg hmore]
        exact ⟨counter, hcounter, by omega, rfl⟩

-- The CLI uses the counter to its end.
theorem kvencXor_eq (hdigest : BlocksOf32 hmac)
    (hnonce : nonce < 2 ^ 32) {data : Bytes} (hlength : data.length ≤ 8192) :
    kvencXor hmac secret nonce data = .ok (xorBytes data (fullKeystream hmac secret nonce)) := by
  obtain ⟨blocks, hle, henough, hblocks⟩ :=
    @kvencBlocks_eq hmac secret nonce data.length hdigest hlength 258 0 (by omega) (by omega)
  have hbytes : kvencNonceBytes nonce = .ok (beBytes 4 nonce) := by
    rw [kvencNonceBytes, if_pos (by omega)]
    rfl
  have hstream : (blocksFrom (keystreamBlock hmac secret nonce) 0 blocks).length = blocks * 32 :=
    length_blocksFrom (hdigest secret nonce) 0 blocks
  have hmask : xorBytes data (fullKeystream hmac secret nonce) =
      xorBytes data ((blocksFrom (keystreamBlock hmac secret nonce) 0 blocks).take data.length) := by
    refine zipWith_longer ?_ (by rw [List.length_take]; omega)
    exact (List.take_prefix _ _).trans (blocksFrom_le 0 hle)
  rw [hmask]
  unfold kvencXor
  rw [hbytes]
  simp only [bind, Except.bind]
  rw [show ([] : Bytes) = blocksFrom (keystreamBlock hmac secret nonce) 0 0 from rfl, hblocks]

end Stra2us.Client
