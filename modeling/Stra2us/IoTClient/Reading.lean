import Stra2us.IoTClient.Reader

namespace Stra2us.IoTClient

open Foundation Server Kv Kv.Implementation

section Received

-- A line with its line feed, and what stands behind it.
def cutLine (bytes : Bytes) : Option (Bytes × Bytes) :=
  if 10 ∈ bytes then
    some (bytes.takeWhile (· ≠ 10) ++ [10], (bytes.dropWhile (· ≠ 10)).drop 1)
  else none

-- The lines of a head, and what stands behind the blank line after them.
def headLines : Nat → Bytes → Option (List Bytes × Bytes)
  | 0, _ => none
  | fuel + 1, bytes =>
      match cutLine bytes with
      | none => none
      | some (line, rest) =>
          if isBlankLine line then some ([], rest)
          else (headLines fuel rest).map fun head => (line :: head.1, head.2)

def framedBody (length : Int) (rest : Bytes) : Bytes :=
  if length < 0 then rest else rest.take length.toNat

-- The bytes behind the head of what came in, as far as its length goes.
def receivedBody (bytes : Bytes) : Bytes :=
  match headLines (bytes.length + 1) bytes with
  | none => []
  | some (lines, rest) => framedBody (announcedLength lines) rest

theorem cutLine_some {bytes line rest : Bytes} (h : cutLine bytes = some (line, rest)) :
    bytes = line ++ rest ∧ rest.length < bytes.length ∧ ∃ text, line = text ++ [10] ∧ 10 ∉ text := by
  unfold cutLine at h
  split at h
  · rename_i hmem
    obtain ⟨rfl, rfl⟩ := Prod.mk.inj (Option.some.inj h)
    have hnotAll : bytes.dropWhile (· ≠ 10) ≠ [] := by
      intro hnil
      rw [List.dropWhile_eq_nil_iff] at hnil
      exact absurd (hnil 10 hmem) (by decide)
    obtain ⟨first, more, hdrop⟩ := List.exists_cons_of_ne_nil hnotAll
    have hfirst : first = 10 := by
      have hhead := List.head?_dropWhile_not (fun b : UInt8 => decide (b ≠ 10)) bytes
      rw [hdrop] at hhead
      simpa using hhead
    have hsplit : bytes = bytes.takeWhile (· ≠ 10) ++ 10 :: more := by
      have hback := (List.takeWhile_append_dropWhile (p := fun b : UInt8 => decide (b ≠ 10))
        (l := bytes)).symm
      rwa [hdrop, hfirst] at hback
    refine ⟨?_, ?_, bytes.takeWhile (· ≠ 10), rfl, ?_⟩
    · rw [hdrop, List.drop_one, List.tail_cons, List.append_assoc, List.singleton_append]
      exact hsplit
    · have hlength := congrArg List.length hsplit
      rw [hdrop, List.drop_one, List.tail_cons]
      simp only [List.length_append, List.length_cons] at hlength
      omega
    · intro hten
      simpa using List.mem_takeWhile_imp hten
  · cases h

theorem cutLine_none {bytes : Bytes} (h : cutLine bytes = none) : 10 ∉ bytes := by
  unfold cutLine at h
  split at h
  · cases h
  · assumption

theorem headLines_some {fuel : Nat} {bytes rest : Bytes} {lines : List Bytes}
    (h : headLines fuel bytes = some (lines, rest)) :
    ∃ blank, bytes = lines.flatten ++ blank ++ rest ∧ isBlankLine blank = true ∧
      ∀ line ∈ lines, IsLine line := by
  induction fuel generalizing bytes lines with
  | zero => cases h
  | succ fuel ih =>
      rw [headLines] at h
      cases hcut : cutLine bytes with
      | none =>
          rw [hcut] at h
          cases h
      | some cut =>
          obtain ⟨line, tail⟩ := cut
          obtain ⟨rfl, -, hends⟩ := cutLine_some hcut
          rw [hcut] at h
          dsimp only at h
          cases hblank : isBlankLine line with
          | true =>
              rw [hblank, if_pos rfl] at h
              obtain ⟨rfl, rfl⟩ := Prod.mk.inj (Option.some.inj h)
              exact ⟨line, rfl, hblank, by simp⟩
          | false =>
              rw [hblank, if_neg (by decide)] at h
              obtain ⟨⟨more, behind⟩, hmore, heq⟩ := Option.map_eq_some_iff.mp h
              obtain ⟨rfl, rfl⟩ := Prod.mk.inj heq
              obtain ⟨blank, rfl, hb, hlines⟩ := ih hmore
              refine ⟨blank, by simp, hb, ?_⟩
              rw [List.forall_mem_cons]
              exact ⟨⟨hends, hblank⟩, hlines⟩

-- With a turn to spare for each byte, no blank line is there where none is found.
theorem headLines_none {fuel : Nat} {bytes : Bytes} (hfuel : bytes.length < fuel)
    (h : headLines fuel bytes = none) :
    ∃ (lines : List Bytes) (tail : Bytes), bytes = lines.flatten ++ tail ∧ 10 ∉ tail ∧ ∀ line ∈ lines, IsLine line := by
  induction fuel generalizing bytes with
  | zero => omega
  | succ fuel ih =>
      rw [headLines] at h
      cases hcut : cutLine bytes with
      | none => exact ⟨[], bytes, rfl, cutLine_none hcut, by simp⟩
      | some cut =>
          obtain ⟨line, tail⟩ := cut
          obtain ⟨rfl, hshorter, hends⟩ := cutLine_some hcut
          rw [hcut] at h
          dsimp only at h
          cases hblank : isBlankLine line with
          | true =>
              rw [hblank, if_pos rfl] at h
              cases h
          | false =>
              rw [hblank, if_neg (by decide), Option.map_eq_none_iff] at h
              obtain ⟨lines, behind, rfl, hbehind, hlines⟩ := ih (by omega) h
              refine ⟨line :: lines, behind, by simp, hbehind, ?_⟩
              rw [List.forall_mem_cons]
              exact ⟨⟨hends, hblank⟩, hlines⟩

end Received

section Stored

variable {call : Call} {r : Reader}

theorem readHead_foldl (bytes : Bytes) :
    (bytes.foldl (takeIn call) r).readHead = r.readHead + bytes.length := by
  induction bytes generalizing r with
  | nil => rfl
  | cons c bytes ih =>
      rw [List.foldl_cons, ih]
      change r.readHead + 1 + bytes.length = r.readHead + (bytes.length + 1)
      omega

-- What is in the object after `bytes` went to it from `start` on.
def written (maxLen start : Nat) (bytes object : Bytes) : Bytes :=
  object.take start ++ bytes.take (maxLen - start) ++
    object.drop (start + min bytes.length (maxLen - start))

theorem written_cons {maxLen start : Nat} {c : UInt8} {bytes object : Bytes}
    (hfits : maxLen ≤ object.length) (hroom : start < maxLen) :
    written maxLen (start + 1) bytes (object.set start c) =
      written maxLen start (c :: bytes) object := by
  have hmore : maxLen - start = maxLen - (start + 1) + 1 := by omega
  have htake : (object.set start c).take (start + 1) = object.take start ++ [c] := by
    rw [List.take_add_one, List.take_set_of_le (Nat.le_refl start),
      List.getElem?_set_self (by omega)]
    rfl
  have hdrop (k : Nat) (hk : start < k) : (object.set start c).drop k = object.drop k :=
    List.drop_set_of_lt hk
  unfold written
  rw [htake, hdrop _ (by omega), hmore, List.take_succ_cons, List.append_assoc (object.take start),
    List.singleton_append, List.length_cons]
  congr 2
  omega

theorem written_full {maxLen start : Nat} (bytes object : Bytes) (h : maxLen ≤ start) :
    written maxLen start bytes object = object := by
  unfold written
  rw [Nat.sub_eq_zero_of_le h, List.take_zero, List.append_nil, Nat.min_zero, Nat.add_zero,
    List.take_append_drop]

theorem responseBuffer_foldl (hfits : Fits call r) (hout : call.hasOutLen = true) (bytes : Bytes) :
    (bytes.foldl (takeIn call) r).responseBuffer =
      r.responseBuffer.map (written call.maxLen r.readHead bytes) := by
  induction bytes generalizing r with
  | nil =>
      have hself : written call.maxLen r.readHead [] = id := by
        funext object
        simp [written]
      rw [hself, Option.map_id]
      rfl
  | cons c bytes ih =>
      rw [List.foldl_cons, ih hfits.takeIn]
      change (r.responseBuffer.map _).map (written call.maxLen (r.readHead + 1) bytes) = _
      rw [Option.map_map]
      cases hbuffer : r.responseBuffer with
      | none => rfl
      | some object =>
          have hle := hfits object hbuffer
          rw [Option.map_some, Option.map_some, Function.comp_apply]
          by_cases hroom : r.readHead < call.maxLen
          · rw [if_pos ⟨hout, hroom⟩, written_cons hle hroom]
          · rw [if_neg (by omega), written_full _ _ (by omega), written_full _ _ (by omega)]

theorem toInt_le (text : Bytes) : toInt text ≤ intMax := by
  have hclamp (n : Int) : clampLong n ≤ intMax := by
    unfold clampLong
    omega
  unfold toInt
  split
  · exact hclamp _
  · exact hclamp _
  · exact hclamp _

theorem announcedLength_le (lines : List Bytes) : announcedLength lines ≤ intMax := by
  have hfold (n : Int) (hn : n ≤ intMax) : lines.foldl lengthAfter n ≤ intMax := by
    induction lines generalizing n with
    | nil => exact hn
    | cons line lines ih =>
        refine ih _ ?_
        unfold lengthAfter
        dsimp only
        split
        · exact toInt_le _
        · exact hn
  exact hfold (-1) (by unfold intMax; omega)

def Fed.reader : Fed → Reader
  | .left r _ => r
  | .waiting r => r

-- Behind the head: the body goes to the buffer, or there is more of it than an `int` counts.
theorem feed_body {length : Int} (hbody : r.isBody = true) (hfits : Fits call r)
    (hhead : r.readHead = 0) (hlength : r.contentLength = length) (hle : length ≤ intMax)
    (hne : length ≠ 0) (rest : Bytes) :
    ((framedBody length rest).length ≤ intMax → ∃ fed, feed call r rest = some fed ∧
        fed.reader = (framedBody length rest).foldl (takeIn call) r) ∧
      (intMax < (framedBody length rest).length → feed call r rest = none) := by
  unfold framedBody
  by_cases hnegative : length < 0
  · rw [if_pos hnegative]
    constructor
    · intro hroom
      exact ⟨_, feed_unfinished hbody hfits (by omega) (by omega), rfl⟩
    · intro hroom
      exact feed_overflow hbody hfits (by omega) (by omega) (by omega)
  · rw [if_neg hnegative]
    have htaken : (rest.take length.toNat).length ≤ length.toNat := by
      rw [List.length_take]
      omega
    refine ⟨?_, fun hroom => absurd hroom (by omega)⟩
    intro _
    by_cases henough : length.toNat ≤ rest.length
    · have hall : (rest.take length.toNat).length = length.toNat := by
        rw [List.length_take]
        omega
      have hne : rest.take length.toNat ≠ [] := List.ne_nil_iff_length_pos.mpr (by omega)
      have hexit := feed_announced hbody hfits hne (by omega) (by omega) (rest.drop length.toNat)
      rw [List.take_append_drop] at hexit
      exact ⟨_, hexit, rfl⟩
    · rw [List.take_of_length_le (by omega)]
      exact ⟨_, feed_unfinished hbody hfits (by omega) (by omega), rfl⟩

-- Put together, for any bytes that come in.
theorem feed_received (hout : call.hasOutLen = true) (lastResponseTs : UInt32) (bytes : Bytes) :
    ((receivedBody bytes).length ≤ intMax → ∃ fed,
        feed call (.start call.memory lastResponseTs) bytes = some fed ∧
        fed.reader.readHead = (receivedBody bytes).length ∧
        fed.reader.responseBuffer =
          call.memory.map (written call.maxLen 0 (receivedBody bytes))) ∧
      (intMax < (receivedBody bytes).length →
        feed call (.start call.memory lastResponseTs) bytes = none) := by
  have hnothing : written call.maxLen 0 [] = id := by
    funext object
    simp [written]
  unfold receivedBody
  cases hhead : headLines (bytes.length + 1) bytes with
  | none =>
      obtain ⟨lines, tail, hsplit, htail, hlines⟩ := headLines_none (Nat.lt_succ_self _) hhead
      obtain ⟨hbody, hcount, hbuffer⟩ :=
        @unchanged_foldl (.start call.memory lastResponseTs) lines
      refine ⟨fun _ => ?_, fun hroom => absurd hroom (Nat.not_lt_zero _)⟩
      have hfeed : feed call (.start call.memory lastResponseTs) bytes =
          feed call (lines.foldl nextLine (.start call.memory lastResponseTs)) tail := by
        rw [hsplit]
        exact feed_lines hlines rfl rfl tail
      rw [feed_incomplete htail hbody] at hfeed
      refine ⟨_, hfeed, hcount, ?_⟩
      rw [hnothing, Option.map_id]
      exact hbuffer
  | some head =>
      obtain ⟨lines, rest⟩ := head
      obtain ⟨blank, hsplit, hblank, hlines⟩ := headLines_some hhead
      obtain ⟨r, hbody, hcount, hbuffer, hlength, -, hfeed⟩ :=
        feed_head call lastResponseTs hlines hblank rest
      rw [← hsplit] at hfeed
      have hfits := fits_of_buffer hbuffer
      rw [hfeed]
      dsimp only
      by_cases hzero : announcedLength lines = 0
      · have hempty : framedBody (announcedLength lines) rest = [] := by
          rw [hzero]
          rfl
        rw [if_pos hzero, hempty]
        refine ⟨fun _ => ⟨_, rfl, hcount, ?_⟩, fun hroom => absurd hroom (Nat.not_lt_zero _)⟩
        rw [hnothing, Option.map_id]
        exact hbuffer
      · obtain ⟨hroom, hover⟩ := feed_body hbody hfits hcount hlength (announcedLength_le lines)
          hzero rest
        rw [if_neg hzero]
        refine ⟨fun hle => ?_, hover⟩
        obtain ⟨fed, hrun, hreader⟩ := hroom hle
        refine ⟨fed, hrun, ?_, ?_⟩
        · rw [hreader, readHead_foldl, hcount, Nat.zero_add]
        · rw [hreader, responseBuffer_foldl hfits hout, hbuffer, hcount]

end Stored

section Inside

-- The buffer of a caller, with what it says of its size.
structure Destination where
  memory : Bytes
  maxLen : Nat
  fits : maxLen ≤ memory.length
  sized : memory.length < sizeMax

def Destination.call (d : Destination) (hasOutLen : Bool) : Call where
  memory := some d.memory
  hasOutLen := hasOutLen
  maxLen := d.maxLen
  fits := by
    intro object h
    obtain rfl := Option.some.inj h
    exact d.fits

def readKV (client : IoTClient) (d : Destination) (hasOutLen : Bool)
    (socket : List (Option UInt8)) : Option Response :=
  client.sendSignedRequest (d.call hasOutLen) socket

-- A missing length is replaced by one of its own.
def consumeQueue (client : IoTClient) (d : Destination) (hasOutLen : Bool)
    (socket : List (Option UInt8)) : Option Response := do
  let response ← client.sendSignedRequest (d.call true) socket
  some { response with outLen := if hasOutLen then response.outLen else none }

-- Nothing behind `maxLen` is written, the length is that of the body bytes in the buffer, and
-- what decrypts them stays in the buffer.
def StaysInside (hmac : Hmac) (client : IoTClient) (d : Destination)
    (socket : List (Option UInt8)) (response : Option Response) : Prop :=
  ∃ after memory outLen, response = some after ∧ after.responseBuffer = some memory ∧
    after.outLen = some outLen ∧ memory.length = d.memory.length ∧
    memory.drop d.maxLen = d.memory.drop d.maxLen ∧ outLen ≤ d.maxLen ∧
    memory.take outLen = (receivedBody (bytesOf socket)).take d.maxLen ∧
    outLen = ((receivedBody (bytesOf socket)).take d.maxLen).length ∧
    (decryptKVResponseIfEncrypted hmac { client with lastResponseTs := after.lastResponseTs }
      ⟨memory, outLen⟩).isSome

theorem written_zero {maxLen : Nat} {bytes object : Bytes} (h : bytes.length ≤ maxLen) :
    written maxLen 0 bytes object = bytes ++ object.drop bytes.length := by
  unfold written
  rw [Nat.sub_zero, List.take_zero, List.nil_append, List.take_of_length_le h,
    Nat.min_eq_left h, Nat.zero_add]

theorem sendSignedRequest_feed (client : IoTClient) (call : Call) (socket : List (Option UInt8)) :
    (feed call (.start call.memory client.lastResponseTs) (bytesOf socket) = none →
        client.sendSignedRequest call socket = none) ∧
      ∀ fed, feed call (.start call.memory client.lastResponseTs) (bytesOf socket) = some fed →
        client.sendSignedRequest call socket =
          some ⟨fed.reader.statusCode, fed.reader.responseBuffer,
            if call.hasOutLen then some fed.reader.readHead else none,
            fed.reader.lastResponseTs⟩ := by
  obtain ⟨hnone, hwaiting, hleft⟩ :=
    readLoop_feed call (.start call.memory client.lastResponseTs) socket
  refine ⟨?_, ?_⟩
  · intro h
    unfold sendSignedRequest
    rw [hnone h]
    rfl
  · intro fed h
    unfold sendSignedRequest
    cases fed with
    | waiting r =>
        rw [hwaiting r h]
        rfl
    | left r bytes =>
        obtain ⟨consumed, rest, -, -, hrun⟩ := hleft r bytes h
        rw [hrun]
        rfl

variable {hmac : Hmac} {client : IoTClient}

theorem staysInside_sendSignedRequest (hdigest : ∀ key message, (hmac key message).length = 32)
    (hsecret : 64 ≤ client.secretHex.length) (d : Destination) (socket : List (Option UInt8)) :
    StaysInside hmac client d socket (client.sendSignedRequest (d.call true) socket) ↔
      (receivedBody (bytesOf socket)).length ≤ d.maxLen ∧
        (receivedBody (bytesOf socket)).length < 2 ^ 31 ∧
        ¬ Buffer.Wraps ⟨receivedBody (bytesOf socket), (receivedBody (bytesOf socket)).length⟩ := by
  let body := receivedBody (bytesOf socket)
  obtain ⟨hnone, hsome⟩ := sendSignedRequest_feed client (d.call true) socket
  obtain ⟨hroom, hover⟩ := @feed_received (d.call true) rfl client.lastResponseTs (bytesOf socket)
  have hdfits := d.fits
  by_cases hcount : body.length ≤ intMax
  · obtain ⟨fed, hfeed, hhead, hbuffer⟩ := hroom hcount
    rw [hsome fed hfeed, hhead, hbuffer]
    by_cases hfits : body.length ≤ d.maxLen
    · have htail : body ++ d.memory.drop body.length =
          written d.maxLen 0 body d.memory := (written_zero hfits).symm
      have htotal : (body ++ d.memory.drop body.length).length = d.memory.length := by
        rw [List.length_append, List.length_drop]
        omega
      have hdecrypt : (decryptKVResponseIfEncrypted hmac
          { client with lastResponseTs := fed.reader.lastResponseTs }
          ⟨body ++ d.memory.drop body.length, body.length⟩).isSome ↔
            ¬ Buffer.Wraps ⟨body, body.length⟩ := by
        constructor
        · intro hisSome hwraps
          rw [decrypt_wraps (by rw [htotal]; exact d.sized) hwraps] at hisSome
          cases hisSome
        · intro hwraps
          obtain ⟨done, out, len, -, -, hrun⟩ := @decrypt_within hmac
            { client with lastResponseTs := fed.reader.lastResponseTs } hdigest hsecret body hwraps
          rw [hrun]
          rfl
      constructor
      · rintro ⟨after, memory, outLen, hafter, hmemory, hout, -, -, -, -, -, hisSome⟩
        obtain rfl := Option.some.inj hafter
        obtain rfl := Option.some.inj hout
        obtain rfl := Option.some.inj hmemory
        change (decryptKVResponseIfEncrypted hmac _ ⟨written d.maxLen 0 body d.memory, _⟩).isSome
          at hisSome
        rw [← htail] at hisSome
        have hsmall : body.length < 2 ^ 31 := by
          unfold intMax at hcount
          omega
        exact ⟨hfits, hsmall, hdecrypt.mp hisSome⟩
      · rintro ⟨-, -, hwraps⟩
        refine ⟨_, body ++ d.memory.drop body.length, body.length, rfl, congrArg some htail.symm,
          rfl, htotal, ?_, hfits, ?_, ?_, hdecrypt.mpr hwraps⟩
        · rw [List.drop_append, List.drop_of_length_le hfits, List.nil_append, List.drop_drop]
          congr 1
          omega
        · rw [List.take_left, List.take_of_length_le hfits]
        · rw [List.take_of_length_le hfits]
    · refine iff_of_false ?_ fun h => hfits h.1
      rintro ⟨after, memory, outLen, hafter, -, hout, -, -, hle, -⟩
      obtain rfl := Option.some.inj hafter
      obtain rfl := Option.some.inj hout
      exact hfits hle
  · refine iff_of_false ?_ ?_
    · rintro ⟨after, memory, outLen, hafter, -⟩
      rw [hnone (hover (Nat.lt_of_not_le hcount))] at hafter
      cases hafter
    · rintro ⟨-, hsmall, -⟩
      change body.length < 2 ^ 31 at hsmall
      unfold intMax at hcount
      omega

-- Both readers stay inside exactly when the body fits the buffer and no size in it wraps.
theorem reads_inside_iff (hdigest : ∀ key message, (hmac key message).length = 32)
    (hsecret : 64 ≤ client.secretHex.length) (d : Destination) (socket : List (Option UInt8)) :
    StaysInside hmac client d socket (client.readKV d true socket) ∧
        StaysInside hmac client d socket (client.consumeQueue d true socket) ↔
      (receivedBody (bytesOf socket)).length ≤ d.maxLen ∧
        (receivedBody (bytesOf socket)).length < 2 ^ 31 ∧
        ¬ Buffer.Wraps ⟨receivedBody (bytesOf socket), (receivedBody (bytesOf socket)).length⟩ := by
  have hsame : client.consumeQueue d true socket = client.readKV d true socket := by
    unfold consumeQueue readKV
    cases client.sendSignedRequest (d.call true) socket with
    | none => rfl
    | some response => rfl
  rw [hsame, and_self_iff]
  exact staysInside_sendSignedRequest hdigest hsecret d socket

-- A buffer of two bytes and an encrypted value of one.
def twoBytes : Destination := ⟨[0, 0], 2, by decide, by decide⟩

def plainText (text : String) : List (Option UInt8) :=
  (utf8 text.toList).map some

def oneByteValue : List (Option UInt8) :=
  plainText "HTTP/1.1 200 OK\r\nContent-Length: 3\r\n\r\n" ++ [some 0xd4, some 0x21, some 0x00]

theorem reads_inside_empty :
    StaysInside echo zeroClient twoBytes (plainText "HTTP/1.1 204 No Content\r\n\r\n")
        (zeroClient.readKV twoBytes true (plainText "HTTP/1.1 204 No Content\r\n\r\n")) ∧
      StaysInside echo zeroClient twoBytes (plainText "HTTP/1.1 204 No Content\r\n\r\n")
        (zeroClient.consumeQueue twoBytes true
          (plainText "HTTP/1.1 204 No Content\r\n\r\n")) := by
  have hbody : receivedBody (bytesOf (plainText "HTTP/1.1 204 No Content\r\n\r\n")) = [] := by
    decide +kernel
  refine (@reads_inside_iff echo zeroClient length_echo (by decide) twoBytes _).mpr ?_
  rw [hbody]
  refine ⟨by decide, by decide, ?_⟩
  rintro ⟨b3, b2, b1, b0, rest, heq, -⟩
  cases heq

-- Three bytes are reported for a buffer of two, and decrypting them reads behind it.
theorem outLen_exceeds_maxLen :
    (zeroClient.readKV twoBytes true oneByteValue).map (·.outLen) = some (some 3) ∧
      zeroClient.decryptKVResponseIfEncrypted echo ⟨[0xd4, 0x21], 3⟩ = none ∧
      ¬ StaysInside echo zeroClient twoBytes oneByteValue
        (zeroClient.readKV twoBytes true oneByteValue) := by
  have hout : (zeroClient.readKV twoBytes true oneByteValue).map (·.outLen) = some (some 3) := by
    decide +kernel
  refine ⟨hout, by decide +kernel, ?_⟩
  rintro ⟨after, memory, outLen, hafter, -, hlen, -, -, hle, -⟩
  rw [hafter, Option.map_some, hlen] at hout
  obtain rfl := Option.some.inj (Option.some.inj hout)
  exact absurd hle (by decide)

end Inside

end Stra2us.IoTClient
