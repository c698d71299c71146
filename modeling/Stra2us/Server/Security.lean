import Stra2us.Foundation.BigEndian
import Stra2us.Foundation.Hex
import Stra2us.Server.Effect

namespace Stra2us.Server

open Foundation

-- The digest of a message under a key. SHA-256 stays a parameter.
abbrev Hmac := Bytes → Bytes → Bytes

-- What both directions sign: URI, body, then the timestamp in decimal.
def signingPayload (uri : Text) (body : Bytes) (timestamp : Int) : Bytes :=
  utf8 uri ++ body ++ utf8 (intText timestamp)

def calculateSignature (hmac : Hmac) (secretHex : Text) (payload : Bytes) : Except Exn Text :=
  match fromHex secretHex with
  | some secret => .ok (hexdigest (hmac secret payload))
  | none => .error (.python "ValueError".toList)

def signPayload (hmac : Hmac) (secretHex uri : Text) (body : Bytes) (timestamp : Int) :
    Except Exn Text :=
  calculateSignature hmac secretHex (signingPayload uri body timestamp)

-- `hmac.compare_digest` on two strings takes only ASCII ones.
def compareDigest (expected signature : Text) : Except Exn Bool :=
  if signature.all (·.toNat < 128) then .ok (expected = signature)
  else .error (.python "TypeError".toList)

def verifySignature (hmac : Hmac) (secretHex uri : Text) (body : Bytes) (timestamp : Int)
    (signature : Text) : Except Exn Bool := do
  let expectedMac ← signPayload hmac secretHex uri body timestamp
  compareDigest expectedMac signature

def maxDrift : Nat := 300

def verifyTimestamp (currentTime timestamp : Int) : Bool :=
  (currentTime - timestamp).natAbs ≤ maxDrift

section Kvenc

def kvencLabel : Bytes := utf8 "stra2us-kvenc-v1".toList

def kvencExtType : Nat := 0x21

-- The HMAC input of one keystream block.
def kvencBlockInput (nonce counter : Nat) : Bytes :=
  kvencLabel ++ beBytes 4 nonce ++ [UInt8.ofNat counter]

-- One block a turn until there is enough; the check on the counter comes after the
-- block is added, so the turn that uses counter 255 fails.
def kvencBlocks (hmac : Hmac) (secret : Bytes) (nonce length : Nat) :
    (turns counter : Nat) → Bytes → Except Exn Bytes
  | 0, _, _ => .error .outOfFuel
  | turns + 1, counter, out =>
      if out.length < length then
        let out := out ++ hmac secret (kvencBlockInput nonce counter)
        if counter + 1 > 255 then .error (.python "ValueError".toList)
        else kvencBlocks hmac secret nonce length turns (counter + 1) out
      else .ok out

def kvencKeystream (hmac : Hmac) (secretHex : Text) (nonce : Int) (length : Nat) :
    Except Exn Bytes :=
  match fromHex secretHex with
  | none => .error (.python "ValueError".toList)
  | some secret =>
      if 0 ≤ nonce ∧ nonce < 2 ^ 32 then do
        let out ← kvencBlocks hmac secret nonce.toNat length 257 0 []
        .ok (out.take length)
      else .error (.python "OverflowError".toList)

def xorBytes (data keystream : Bytes) : Bytes :=
  List.zipWith (· ^^^ ·) data keystream

def kvencXor (hmac : Hmac) (secretHex : Text) (nonce : Int) (data : Bytes) :
    Except Exn Bytes := do
  let keystream ← kvencKeystream hmac secretHex nonce data.length
  .ok (xorBytes data keystream)

end Kvenc

end Stra2us.Server
