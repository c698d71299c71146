import Stra2us.Client.Kvenc
import Stra2us.IoTClient.Kvenc

namespace Stra2us.Kv

open Foundation Server

-- A secret of 32 bytes and the hex text in which all three parties hold it.
structure Secret where
  text : Text
  bytes : Bytes
  reads : fromHex text = some bytes
  digits : text.length = 64
  width : bytes.length = 32

inductive Implementation
  | server
  | cli
  | sdk
deriving DecidableEq, Repr

-- The cipher as each of them has it, on a buffer of just the data for the SDK.
def Implementation.xor (hmac : Hmac) (secret : Secret) (nonce : Nat) (data : Bytes) :
    Implementation → Option Bytes
  | .server => (kvencXor hmac secret.text nonce data).toOption
  | .cli => (Client.kvencXor hmac secret.bytes nonce data).toOption
  | .sdk => IoTClient.kvencXor hmac ⟨secret.text, 0⟩ (UInt32.ofNat nonce) data data.length

namespace Implementation

variable {hmac : Hmac} {secret : Secret} {nonce : Nat} {data : Bytes}

theorem secretBytes_text (ts : UInt32) :
    (IoTClient.mk secret.text ts).secretBytes = some secret.bytes := by
  have h := IoTClient.secretBytes_eq secret.reads (by rw [secret.digits, secret.width])
  rwa [secret.width] at h

-- Whichever of them it is, and as long as it succeeds, the stream is the same.
theorem xor_eq (hdigest : ∀ key message, (hmac key message).length = 32)
    (hnonce : nonce < 2 ^ 32) (implementation : Implementation) (hlength : data.length ≤ 8192)
    (hserver : implementation = .server → data.length ≤ 8160) :
    implementation.xor hmac secret nonce data =
      some (xorBytes data (fullKeystream hmac secret.bytes nonce)) := by
  cases implementation with
  | server =>
      obtain ⟨ciphertext, hciphertext⟩ := (@kvencXor_ok_iff hmac secret.text nonce data
        (blocksOf32 hdigest) (by rw [secret.reads]; rfl)).mpr ⟨by omega, hserver rfl⟩
      rw [xor, hciphertext, kvencXor_full secret.reads hciphertext]
      rfl
  | cli =>
      rw [xor, Client.kvencXor_eq (blocksOf32 hdigest) hnonce hlength]
      rfl
  | sdk =>
      have h := @IoTClient.kvencXor_eq hmac secret.bytes (UInt32.ofNat nonce) _ hdigest
        (secretBytes_text 0) data [] hlength
      have htoNat : (UInt32.ofNat nonce).toNat = nonce := UInt32.toNat_ofNat_of_lt' hnonce
      rw [htoNat, List.append_nil, List.append_nil] at h
      exact h

theorem server_some_iff (hdigest : ∀ key message, (hmac key message).length = 32)
    (hnonce : nonce < 2 ^ 32) :
    (∃ masked, Implementation.server.xor hmac secret nonce data = some masked) ↔
      data.length ≤ 8160 := by
  have hok := @kvencXor_ok_iff hmac secret.text nonce data (blocksOf32 hdigest) (by rw [secret.reads]; rfl)
  unfold xor
  cases hserver : kvencXor hmac secret.text nonce data with
  | error exn =>
      rw [hserver] at hok
      constructor
      · rintro ⟨masked, h⟩
        cases h
      · intro hlength
        obtain ⟨ciphertext, h⟩ := hok.mpr ⟨by omega, hlength⟩
        cases h
  | ok ciphertext =>
      have hlength := (hok.mp ⟨ciphertext, hserver⟩).2
      exact iff_of_true ⟨ciphertext, rfl⟩ hlength

-- The server gives out one block before the other two.
theorem agree_iff (hdigest : ∀ key message, (hmac key message).length = 32)
    (hnonce : nonce < 2 ^ 32) (hlength : data.length ≤ 256 * 32) :
    (∃ masked, ∀ first second : Implementation, first.xor hmac secret nonce data = some masked ∧
        second.xor hmac secret nonce masked = some data) ↔
      data.length ≤ 255 * 32 := by
  constructor
  · rintro ⟨masked, hagree⟩
    exact (server_some_iff hdigest hnonce).mp ⟨masked, (hagree .server .server).1⟩
  · intro hshort
    have hstream := @length_fullKeystream hmac secret.bytes nonce (blocksOf32 hdigest)
    have hmasked : (xorBytes data (fullKeystream hmac secret.bytes nonce)).length =
        data.length := by
      simp only [xorBytes, List.length_zipWith]
      omega
    refine ⟨xorBytes data (fullKeystream hmac secret.bytes nonce), ?_⟩
    intro first second
    constructor
    · exact xor_eq hdigest hnonce first (by omega) (by omega)
    · rw [xor_eq hdigest hnonce second (by omega) (by omega), xorBytes_twice (by omega)]

def zeroSecret : Secret where
  text := List.replicate 64 '0'
  bytes := List.replicate 32 0
  reads := rfl
  digits := rfl
  width := rfl

-- A digest that masks with a byte of its key and one of its message.
def echo : Hmac := fun key message =>
  List.replicate 32 (key.headD 0 + message.getLastD 0)

theorem length_echo (key message : Bytes) : (echo key message).length = 32 :=
  List.length_replicate

theorem agree_hello :
    (∃ masked, ∀ first second : Implementation,
        first.xor echo zeroSecret 1700000000 (utf8 "hello".toList) = some masked ∧
          second.xor echo zeroSecret 1700000000 masked = some (utf8 "hello".toList)) ↔
      (utf8 "hello".toList).length ≤ 255 * 32 :=
  agree_iff length_echo (by omega) (by decide)

-- The last block that the other two have, begun by one byte.
theorem last_block_refused :
    ¬ ∃ masked, ∀ first second : Implementation,
      first.xor echo zeroSecret 1700000000 (List.replicate 8161 0) = some masked ∧
        second.xor echo zeroSecret 1700000000 masked = some (List.replicate 8161 0) := by
  rintro ⟨masked, hagree⟩
  have hlength := (server_some_iff length_echo (by omega)).mp
    ⟨masked, (hagree .server .server).1⟩
  rw [List.length_replicate] at hlength
  omega

end Implementation

end Stra2us.Kv
