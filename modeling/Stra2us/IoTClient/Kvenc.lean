import Stra2us.Foundation.Numerals
import Stra2us.Kv.Keystream

namespace Stra2us

open Foundation Server Kv

-- The SDK as it is built for the boards that have mbedtls.
structure IoTClient where
  secretHex : Text
  lastResponseTs : UInt32
deriving DecidableEq, Repr

namespace IoTClient

section Secret

-- The digits of a hexadecimal number, up to the first character that is none.
def hexRun : Nat → Text → Nat
  | n, [] => n
  | n, c :: rest =>
      match hexValue c with
      | some digit => hexRun (n * 16 + digit) rest
      | none => n

-- `strtol` in base 16, on strings too short for a prefix or an overflow.
def strtolHex (text : Text) : Int :=
  match (text.takeWhile (· ≠ '\x00')).dropWhile isAsciiSpace with
  | '-' :: digits => -(hexRun 0 digits : Int)
  | '+' :: digits => hexRun 0 digits
  | digits => hexRun 0 digits

-- A character of a C string. The terminator may be read and nothing after it.
def charAt (text : Text) (i : Nat) : Option Char :=
  if i = text.length then some '\x00' else text[i]?

def secretByte (text : Text) (i : Nat) : Option UInt8 := do
  let high ← charAt text (i * 2)
  let low ← charAt text (i * 2 + 1)
  some (UInt8.ofNat (strtolHex [high, low, '\x00'] % 256).toNat)

def secretBytes (client : IoTClient) : Option Bytes :=
  (List.range 32).mapM (secretByte client.secretHex)

end Secret

section Cipher

def kLabel : Bytes := utf8 "stra2us-kvenc-v1".toList

def nonceBytes (nonce : UInt32) : Bytes :=
  [(nonce >>> 24 &&& 0xff).toUInt8, (nonce >>> 16 &&& 0xff).toUInt8,
    (nonce >>> 8 &&& 0xff).toUInt8, (nonce &&& 0xff).toUInt8]

-- A `size_t` has 32 bits on these boards.
def sizeMax : Nat := 2 ^ 32

def sizeAdd (a b : Nat) : Nat :=
  (a + b) % sizeMax

-- The inner loop. `data` is the memory from the pointer to the end of its object, and none
-- of the positions from `pos` on may lie beyond it.
def xorBlock (block : Bytes) (pos blockEnd : Nat) (data : Bytes) : Option Bytes :=
  if blockEnd ≤ pos then some data
  else if blockEnd ≤ data.length then
    some (data.take pos ++ xorBytes ((data.drop pos).take (blockEnd - pos)) block ++
      data.drop blockEnd)
  else none

-- The counter comes back to zero after 256 turns, so there is one turn to spare.
def kvencLoop (hmac : Hmac) (secret : Bytes) (nonce : UInt32) (len : Nat) :
    (turns : Nat) → (counter : UInt8) → (pos : Nat) → Bytes → Option Bytes
  | 0, _, _, _ => none
  | turns + 1, counter, pos, data =>
      if pos < len then do
        let block := hmac secret (kLabel ++ nonceBytes nonce ++ [counter])
        let blockEnd := min (sizeAdd pos 32) len
        let data ← xorBlock block pos blockEnd data
        if counter + 1 = 0 ∧ blockEnd < len then some data
        else kvencLoop hmac secret nonce len turns (counter + 1) blockEnd data
      else some data

def kvencXor (hmac : Hmac) (client : IoTClient) (nonce : UInt32) (data : Bytes) (len : Nat) :
    Option Bytes := do
  let secret ← client.secretBytes
  kvencLoop hmac secret nonce len 257 0 0 data

end Cipher

section Secret

variable {c d : Char} {high low : Nat}

theorem hexValue_range (h : hexValue c = some high) :
    (48 ≤ c.toNat ∧ c.toNat ≤ 57) ∨ (65 ≤ c.toNat ∧ c.toNat ≤ 70) ∨
      (97 ≤ c.toNat ∧ c.toNat ≤ 102) := by
  have hle (a b : Char) (h : a ≤ b) : a.toNat ≤ b.toNat := h
  unfold hexValue at h
  split at h
  · rename_i hrange
    exact .inl ⟨hle _ _ hrange.1, hle _ _ hrange.2⟩
  · split at h
    · rename_i hrange
      exact .inr (.inr ⟨hle _ _ hrange.1, hle _ _ hrange.2⟩)
    · split at h
      · rename_i hrange
        exact .inr (.inl ⟨hle _ _ hrange.1, hle _ _ hrange.2⟩)
      · cases h

theorem strtolHex_pair (hc : hexValue c = some high) (hd : hexValue d = some low) :
    strtolHex [c, d, '\x00'] = (high * 16 + low : Nat) := by
  have hne (e : Char) (n : Nat) (he : hexValue e = some n) (f : Char)
      (hf : f.toNat < 48) : e ≠ f := by
    rintro rfl
    have hrange := hexValue_range he
    omega
  have hspace : isAsciiSpace c = false := by
    have hrange := hexValue_range hc
    simp only [isAsciiSpace, Bool.or_eq_false_iff, Bool.and_eq_false_iff, decide_eq_false_iff_not]
    omega
  have hminus := hne c high hc '-' (by decide)
  have hplus := hne c high hc '+' (by decide)
  have hrun : (([c, d, '\x00'] : Text).takeWhile (· ≠ '\x00')).dropWhile isAsciiSpace =
      [c, d] := by
    simp [hne c high hc '\x00' (by decide), hne d low hd '\x00' (by decide), hspace]
  unfold strtolHex
  rw [hrun]
  split
  · rename_i h
    exact absurd (List.cons.inj h).1 hminus
  · rename_i h
    exact absurd (List.cons.inj h).1 hplus
  · simp [hexRun, hc, hd]

theorem fromHex_length {text : Text} {bytes : Bytes} (h : fromHex text = some bytes) :
    2 * bytes.length ≤ text.length := by
  induction text using fromHex.induct generalizing bytes with
  | case1 =>
      obtain rfl := Option.some.inj h
      simp
  | case2 c hspace =>
      rw [fromHex, if_pos hspace] at h
      obtain rfl := Option.some.inj h
      simp
  | case3 c hspace =>
      rw [fromHex, if_neg hspace] at h
      cases h
  | case4 c d rest hspace ih =>
      rw [fromHex, if_pos hspace] at h
      have hle := ih h
      simp only [List.length_cons] at hle ⊢
      omega
  | case5 c d rest hspace high low hlow hhigh ih =>
      rw [fromHex, if_neg hspace, hhigh, hlow] at h
      obtain ⟨tail, htail, rfl⟩ := Option.map_eq_some_iff.mp h
      have hle := ih htail
      simp only [List.length_cons]
      omega
  | case6 c d rest hspace hnone =>
      rw [fromHex, if_neg hspace] at h
      split at h
      · exact absurd ‹_› (hnone _ _ ‹_›)
      · cases h

-- Two digits for each byte leave no room for blanks.
theorem fromHex_cons {text : Text} {byte : UInt8} {bytes : Bytes}
    (h : fromHex text = some (byte :: bytes)) (hlength : text.length = 2 * (bytes.length + 1)) :
    ∃ c d rest high low, text = c :: d :: rest ∧ hexValue c = some high ∧
      hexValue d = some low ∧ byte = UInt8.ofNat (high * 16 + low) ∧ fromHex rest = some bytes := by
  match text, hlength with
  | c :: d :: rest, hlength =>
      by_cases hspace : c ∈ [' ', '\t', '\n', '\r', '\x0b', '\x0c']
      · rw [fromHex, if_pos hspace] at h
        have hle := fromHex_length h
        simp only [List.length_cons] at hle hlength
        omega
      · rw [fromHex, if_neg hspace] at h
        cases hc : hexValue c with
        | none => simp [hc] at h
        | some high =>
            cases hd : hexValue d with
            | none => simp [hc, hd] at h
            | some low =>
                rw [hc, hd] at h
                obtain ⟨tail, htail, heq⟩ := Option.map_eq_some_iff.mp h
                obtain ⟨rfl, rfl⟩ := List.cons.inj heq
                exact ⟨c, d, rest, high, low, rfl, hc, hd, rfl, htail⟩

theorem charAt_cons_cons (rest : Text) (i : Nat) :
    charAt (c :: d :: rest) (i + 2) = charAt rest i := by
  simp [charAt]

theorem secretByte_cons_cons (rest : Text) (i : Nat) :
    secretByte (c :: d :: rest) (i + 1) = secretByte rest i := by
  unfold secretByte
  rw [Nat.succ_mul, charAt_cons_cons, Nat.add_right_comm, charAt_cons_cons]

-- Byte by byte the SDK reads the hex text as the server does.
theorem secretBytes_eq {text : Text} {bytes : Bytes} (h : fromHex text = some bytes)
    (hlength : text.length = 2 * bytes.length) :
    (List.range bytes.length).mapM (secretByte text) = some bytes := by
  induction bytes generalizing text with
  | nil => rfl
  | cons byte bytes ih =>
      obtain ⟨c, d, rest, high, low, rfl, hc, hd, rfl, hrest⟩ := fromHex_cons h hlength
      have hfirst : secretByte (c :: d :: rest) 0 = some (UInt8.ofNat (high * 16 + low)) := by
        have hhigh : charAt (c :: d :: rest) 0 = some c := by simp [charAt]
        have hlow : charAt (c :: d :: rest) 1 = some d := by simp [charAt]
        have hbyte (n : Nat) : UInt8.ofNat ((n : Int) % 256).toNat = UInt8.ofNat n := by
          apply UInt8.toNat_inj.mp
          simp only [UInt8.toNat_ofNat']
          omega
        unfold secretByte
        rw [Nat.zero_mul, hhigh, Nat.zero_add, hlow]
        simp only [Option.bind_eq_bind, Option.bind_some]
        rw [strtolHex_pair hc hd, hbyte]
      have htail := ih hrest (by simp only [List.length_cons] at hlength; omega)
      rw [List.length_cons, List.range_succ_eq_map, List.mapM_cons, hfirst, List.mapM_map]
      have hshift : secretByte (c :: d :: rest) ∘ Nat.succ = secretByte rest := by
        funext i
        exact secretByte_cons_cons rest i
      rw [hshift, htail]
      rfl

end Secret

section Input

theorem nonceBytes_eq (nonce : UInt32) : nonceBytes nonce = beBytes 4 nonce.toNat := by
  have hlow (n : UInt32) : (n &&& 0xff).toUInt8 = UInt8.ofNat (n.toNat % 256) := by
    apply UInt8.toNat_inj.mp
    have hmask := Nat.and_two_pow_sub_one_eq_mod (n.toNat % 256) 8
    simp at hmask ⊢
    exact hmask
  simp only [nonceBytes, beBytes, hlow]
  simp [Nat.shiftRight_eq_div_pow, Nat.div_div_eq_div_mul]

theorem blockInput_eq (nonce : UInt32) (counter : UInt8) :
    kLabel ++ nonceBytes nonce ++ [counter] =
      kvencBlockInput nonce.toNat counter.toNat := by
  rw [nonceBytes_eq, kvencBlockInput, UInt8.ofNat_toNat]
  rfl

end Input

section Loop

variable {hmac : Hmac} {secret : Bytes} {nonce : UInt32} {len : Nat}

theorem xorBlock_append {block done todo tail : Bytes} :
    xorBlock block done.length (done.length + todo.length) (done ++ todo ++ tail) =
      some (done ++ xorBytes todo block ++ tail) := by
  unfold xorBlock
  cases todo with
  | nil => simp [xorBytes]
  | cons byte todo =>
      rw [if_neg (by simp), if_pos (by simp)]
      simp [List.append_assoc]

-- From a block boundary on the loop masks what is left with the blocks that are left. `k` is
-- the counter before it wraps.
theorem kvencLoop_eq (hdigest : ∀ key message, (hmac key message).length = 32) {turns k : Nat}
    {done todo tail : Bytes} (hturns : turns + k = 257) (hk : k ≤ 256)
    (hsize : done.length + todo.length + 32 < sizeMax)
    (hboundary : done.length = 32 * k ∨ todo = []) (hroom : todo.length ≤ 32 * (256 - k)) :
    kvencLoop hmac secret nonce (done.length + todo.length) turns (UInt8.ofNat k) done.length
        (done ++ todo ++ tail) =
      some (done ++ xorBytes todo (blocksFrom (keystreamBlock hmac secret nonce.toNat) k (256 - k)) ++
        tail) := by
  induction turns generalizing k done todo with
  | zero => omega
  | succ turns ih =>
      unfold kvencLoop
      by_cases htodo : todo = []
      · subst htodo
        simp [xorBytes]
      · have hpos := List.length_pos_of_ne_nil htodo
        have hdone : done.length = 32 * k := by tauto
        have hlt : k < 256 := by omega
        have hblock : (keystreamBlock hmac secret nonce.toNat k).length = 32 := hdigest _ _
        have hinput : hmac secret (kLabel ++ nonceBytes nonce ++ [UInt8.ofNat k]) =
            keystreamBlock hmac secret nonce.toNat k := by
          rw [blockInput_eq, UInt8.toNat_ofNat', Nat.mod_eq_of_lt hlt]
          rfl
        have hhead : (todo.take 32).length = min 32 todo.length := List.length_take
        have hend : min (sizeAdd done.length 32) (done.length + todo.length) =
            done.length + (todo.take 32).length := by
          unfold sizeAdd
          rw [Nat.mod_eq_of_lt (by omega)]
          omega
        have hsplit : done ++ todo ++ tail = done ++ todo.take 32 ++ (todo.drop 32 ++ tail) := by
          rw [List.append_assoc, List.append_assoc, ← List.append_assoc (todo.take 32),
            List.take_append_drop]
        rw [if_pos (by omega), hinput]
        simp only [hend, hsplit, xorBlock_append, Option.bind_eq_bind, Option.bind_some]
        have hmasked :
            (done ++ xorBytes (todo.take 32) (keystreamBlock hmac secret nonce.toNat k)).length =
              done.length + (todo.take 32).length := by
          simp [xorBytes, hblock]
        have hrest : (todo.drop 32).length = todo.length - 32 := List.length_drop
        -- The wrapped counter is met only behind the last block.
        have hinside : ¬ (UInt8.ofNat k + 1 = 0 ∧
            done.length + (todo.take 32).length < done.length + todo.length) := by
          rintro ⟨hwrap, hmore⟩
          have hzero := congrArg UInt8.toNat hwrap
          simp only [UInt8.toNat_add, UInt8.toNat_ofNat', UInt8.reduceToNat] at hzero
          omega
        have hstep := @ih (k + 1)
          (done ++ xorBytes (todo.take 32) (keystreamBlock hmac secret nonce.toNat k)) (todo.drop 32)
          (by omega) (by omega) (by omega)
          (by rw [← List.length_eq_zero_iff]; omega) (by omega)
        have htotal : done.length + (todo.take 32).length + (todo.drop 32).length =
            done.length + todo.length := by
          omega
        have hnext : UInt8.ofNat k + 1 = UInt8.ofNat (k + 1) := (UInt8.ofNat_add k 1).symm
        rw [hmasked, htotal, List.append_assoc _ (todo.drop 32)] at hstep
        rw [if_neg hinside, hnext, hstep]
        have hstream : blocksFrom (keystreamBlock hmac secret nonce.toNat) k (256 - k) =
            keystreamBlock hmac secret nonce.toNat k ++
              blocksFrom (keystreamBlock hmac secret nonce.toNat) (k + 1) (256 - (k + 1)) := by
          rw [show 256 - k = 256 - (k + 1) + 1 by omega, blocksFrom]
        rw [hstream, xorBytes, xorBytes, xorBytes, zipWith_append_right, hblock]
        simp only [List.append_assoc]

-- Inside its object, and up to one block for each counter, the SDK masks in place.
theorem kvencXor_eq {client : IoTClient}
    (hdigest : ∀ key message, (hmac key message).length = 32)
    (hsecret : client.secretBytes = some secret) {data tail : Bytes}
    (hroom : data.length ≤ 8192) :
    client.kvencXor hmac nonce (data ++ tail) data.length =
      some (xorBytes data (fullKeystream hmac secret nonce.toNat) ++ tail) := by
  have hloop := @kvencLoop_eq hmac secret nonce hdigest 257 0 [] data tail (by omega) (by omega)
    (by simp only [List.length_nil, sizeMax]; omega) (.inl rfl) (by omega)
  unfold kvencXor
  rw [hsecret]
  simpa [fullKeystream] using hloop

end Loop

end IoTClient

end Stra2us
