import Stra2us.IoTClient.Bounds

namespace Stra2us.IoTClient

open Foundation Server

section Strings

-- What the Arduino `String` makes of its bytes.
def startsWith (line : Bytes) (name : String) : Bool :=
  (utf8 name.toList).isPrefixOf line

def toLower (b : UInt8) : UInt8 :=
  if 65 ≤ b ∧ b ≤ 90 then b + 32 else b

def isBlankByte (b : UInt8) : Bool :=
  (9 ≤ b && b ≤ 13) || b = 32

def isDigitByte (b : UInt8) : Bool :=
  48 ≤ b && b ≤ 57

def digitsValue (digits : Bytes) : Nat :=
  digits.foldl (fun n b => n * 10 + (b.toNat - 48)) 0

def intMax : Nat := 2 ^ 31 - 1

-- A `long` has 32 bits here, and what it does not hold comes out at its end.
def clampLong (n : Int) : Int :=
  max (-(intMax : Int) - 1) (min n intMax)

-- `String::toInt`
def toInt (text : Bytes) : Int :=
  match text.dropWhile isBlankByte with
  | 45 :: digits => clampLong (-(digitsValue (digits.takeWhile isDigitByte) : Int))
  | 43 :: digits => clampLong (digitsValue (digits.takeWhile isDigitByte))
  | digits => clampLong (digitsValue (digits.takeWhile isDigitByte))

-- `String::indexOf`, which does not look behind a zero byte.
def indexOf (b : UInt8) (text : Bytes) : Option Nat :=
  let seen := text.takeWhile (· ≠ 0)
  if b ∈ seen then some (seen.takeWhile (· ≠ b)).length else none

end Strings

section Read

-- Where the body goes. A missing buffer or a missing length keeps nothing of it.
structure Call where
  memory : Option Bytes
  hasOutLen : Bool
  maxLen : Nat
  fits : ∀ object, memory = some object → maxLen ≤ object.length

structure Reader where
  isBody : Bool
  currentLine : Bytes
  readHead : Nat
  contentLength : Int
  statusCode : Int
  isFirstLine : Bool
  responseBuffer : Option Bytes
  lastResponseTs : UInt32
deriving DecidableEq, Repr

def Reader.start (memory : Option Bytes) (lastResponseTs : UInt32) : Reader :=
  ⟨false, [], 0, -1, -1, true, memory, lastResponseTs⟩

-- After one turn the loop goes on or is left.
inductive Turn
  | go (r : Reader)
  | stop (r : Reader)

def parseStatus (line : Bytes) (statusCode : Int) : Int :=
  match indexOf 32 line with
  | none => statusCode
  | some firstSpace =>
      let codePart := line.drop (firstSpace + 1)
      match indexOf 32 codePart with
      | some secondSpace => toInt (codePart.take secondSpace)
      | none => toInt codePart

def isBlankLine (line : Bytes) : Bool :=
  line = [13, 10] || line = [10]

def scanHeader (r : Reader) (line : Bytes) : Reader :=
  let r :=
    if r.isFirstLine then
      { r with statusCode := parseStatus line r.statusCode, isFirstLine := false }
    else r
  let lowerLine := line.map toLower
  let r :=
    if startsWith lowerLine "content-length:" then
      { r with contentLength := toInt (lowerLine.drop 15) }
    else r
  if startsWith lowerLine "x-response-timestamp:" then
    { r with lastResponseTs := UInt32.ofNat (toInt (lowerLine.drop 21) % 2 ^ 32).toNat }
  else r

def readLine (r : Reader) (line : Bytes) : Turn :=
  let r := scanHeader r line
  if isBlankLine line then
    let r := { r with isBody := true }
    if r.contentLength = 0 then .stop r else .go { r with currentLine := [] }
  else .go { r with currentLine := [] }

-- A write outside the object has no outcome.
def store (object : Bytes) (i : Nat) (c : UInt8) : Option Bytes :=
  if i < object.length then some (object.set i c) else none

-- The counter is an `int`.
def increment (n : Nat) : Option Nat :=
  if n < intMax then some (n + 1) else none

def keep (call : Call) (r : Reader) (c : UInt8) : Option (Option Bytes) :=
  match r.responseBuffer with
  | some object =>
      if call.hasOutLen ∧ r.readHead < call.maxLen then (store object r.readHead c).map some
      else some (some object)
  | none => some none

def readBody (call : Call) (r : Reader) (c : UInt8) : Option Turn := do
  let responseBuffer ← keep call r c
  let readHead ← increment r.readHead
  let r := { r with responseBuffer, readHead }
  if 0 ≤ r.contentLength ∧ r.contentLength ≤ r.readHead then some (.stop r) else some (.go r)

def readByte (call : Call) (r : Reader) (c : UInt8) : Option Turn :=
  if r.isBody then readBody call r c
  else
    let currentLine := r.currentLine ++ [c]
    if c = 10 then some (readLine r currentLine) else some (.go { r with currentLine })

-- What the socket has for one turn after the other: a byte, or nothing yet. A run of the loop
-- is left with the rest of it, or goes on waiting until the other side closes.
inductive Run
  | left (r : Reader) (rest : List (Option UInt8))
  | waiting (r : Reader)

def readLoop (call : Call) : Reader → List (Option UInt8) → Option Run
  | r, [] => some (.waiting r)
  | r, none :: rest => readLoop call r rest
  | r, some c :: rest => do
      match ← readByte call r c with
      | .go r => readLoop call r rest
      | .stop r => some (.left r rest)

def Run.reader : Run → Reader
  | .left r _ => r
  | .waiting r => r

structure Response where
  statusCode : Int
  responseBuffer : Option Bytes
  outLen : Option Nat
  lastResponseTs : UInt32
deriving DecidableEq, Repr

-- `sendSignedRequest` once it is connected, over all that comes in until the other side closes.
def sendSignedRequest (client : IoTClient) (call : Call) (socket : List (Option UInt8)) :
    Option Response := do
  let run ← readLoop call (.start call.memory client.lastResponseTs) socket
  let r := run.reader
  some ⟨r.statusCode, r.responseBuffer, if call.hasOutLen then some r.readHead else none,
    r.lastResponseTs⟩

end Read

section Feed

-- The same over bytes alone.
inductive Fed
  | left (r : Reader) (rest : Bytes)
  | waiting (r : Reader)

def feed (call : Call) : Reader → Bytes → Option Fed
  | r, [] => some (.waiting r)
  | r, c :: rest => do
      match ← readByte call r c with
      | .go r => feed call r rest
      | .stop r => some (.left r rest)

def bytesOf (socket : List (Option UInt8)) : Bytes :=
  socket.filterMap id

variable {call : Call} {r r' : Reader}

-- Waiting turns change nothing.
theorem readLoop_feed (call : Call) (r : Reader) (socket : List (Option UInt8)) :
    (feed call r (bytesOf socket) = none → readLoop call r socket = none) ∧
      (∀ r', feed call r (bytesOf socket) = some (.waiting r') →
        readLoop call r socket = some (.waiting r')) ∧
      ∀ r' bytes, feed call r (bytesOf socket) = some (.left r' bytes) →
        ∃ consumed rest, socket = consumed ++ rest ∧ bytesOf rest = bytes ∧
          readLoop call r socket = some (.left r' rest) := by
  induction socket generalizing r with
  | nil =>
      refine ⟨?_, ?_, ?_⟩
      · intro h
        cases h
      · intro r' h
        cases h
        rfl
      · intro r' bytes h
        cases h
  | cons poll socket ih =>
      cases poll with
      | none =>
          obtain ⟨hnone, hwaiting, hleft⟩ := ih r
          refine ⟨hnone, hwaiting, ?_⟩
          intro r' bytes h
          obtain ⟨consumed, rest, rfl, hrest, hrun⟩ := hleft r' bytes h
          exact ⟨none :: consumed, rest, rfl, hrest, hrun⟩
      | some c =>
          have hfeed : feed call r (bytesOf (some c :: socket)) = (readByte call r c).bind
              fun turn => match turn with
                | .go r => feed call r (bytesOf socket)
                | .stop r => some (.left r (bytesOf socket)) := rfl
          have hloop : readLoop call r (some c :: socket) = (readByte call r c).bind
              fun turn => match turn with
                | .go r => readLoop call r socket
                | .stop r => some (.left r socket) := rfl
          rw [hfeed, hloop]
          cases hbyte : readByte call r c with
          | none => simp
          | some turn =>
              cases turn with
              | go r₁ =>
                  obtain ⟨hnone, hwaiting, hleft⟩ := ih r₁
                  refine ⟨hnone, hwaiting, ?_⟩
                  intro r' bytes h
                  obtain ⟨consumed, rest, rfl, hrest, hrun⟩ := hleft r' bytes h
                  exact ⟨some c :: consumed, rest, rfl, hrest, hrun⟩
              | stop r₁ =>
                  refine ⟨?_, ?_, ?_⟩
                  · intro h
                    cases h
                  · intro r' h
                    cases h
                  · intro r' bytes h
                    obtain ⟨rfl, rfl⟩ := Fed.left.inj (Option.some.inj h)
                    exact ⟨[some c], socket, rfl, rfl, rfl⟩

theorem feed_go {c : UInt8} (h : readByte call r c = some (.go r')) (rest : Bytes) :
    feed call r (c :: rest) = feed call r' rest := by
  rw [feed, h]
  rfl

theorem feed_stop {c : UInt8} (h : readByte call r c = some (.stop r')) (rest : Bytes) :
    feed call r (c :: rest) = some (.left r' rest) := by
  rw [feed, h]
  rfl

def Reader.collect (r : Reader) (line : Bytes) : Reader :=
  { r with currentLine := r.currentLine ++ line }

theorem Reader.collect_cons (r : Reader) (c : UInt8) (line : Bytes) :
    r.collect (c :: line) = (r.collect [c]).collect line := by
  unfold Reader.collect
  rw [List.append_assoc, List.singleton_append]

theorem readByte_collect {c : UInt8} (hc : c ≠ 10) (hbody : r.isBody = false) :
    readByte call r c = some (.go (r.collect [c])) := by
  have hhead : ¬ r.isBody = true := by
    rw [hbody]
    decide
  unfold readByte
  rw [if_neg hhead, if_neg hc]
  rfl

-- Bytes of a line are collected up to its line feed.
theorem feed_line {line : Bytes} (hline : 10 ∉ line) (hbody : r.isBody = false) (rest : Bytes) :
    feed call r (line ++ 10 :: rest) =
      match readLine (r.collect line) (r.currentLine ++ line ++ [10]) with
      | .go r => feed call r rest
      | .stop r => some (.left r rest) := by
  induction line generalizing r with
  | nil =>
      have hself : r.collect [] = r := by
        unfold Reader.collect
        rw [List.append_nil]
      have hbyte : readByte call r 10 = some (readLine r (r.currentLine ++ [10])) := by
        unfold readByte
        rw [hbody]
        rfl
      rw [List.nil_append, List.append_nil, hself]
      cases hturn : readLine r (r.currentLine ++ [10]) with
      | go r' => exact feed_go (hbyte.trans (congrArg some hturn)) rest
      | stop r' => exact feed_stop (hbyte.trans (congrArg some hturn)) rest
  | cons c line ih =>
      rw [List.mem_cons, not_or] at hline
      have hrest := @ih (r.collect [c]) hline.2 hbody
      rw [List.cons_append, feed_go (readByte_collect (Ne.symm hline.1) hbody), hrest,
        r.collect_cons c line]
      have hsame : (r.collect [c]).currentLine ++ line = r.currentLine ++ c :: line := by
        unfold Reader.collect
        rw [List.append_assoc, List.singleton_append]
      rw [hsame]

theorem feed_incomplete {line : Bytes} (hline : 10 ∉ line) (hbody : r.isBody = false) :
    feed call r line = some (.waiting (r.collect line)) := by
  induction line generalizing r with
  | nil =>
      unfold Reader.collect
      rw [List.append_nil, feed]
  | cons c line ih =>
      rw [List.mem_cons, not_or] at hline
      rw [feed_go (readByte_collect (Ne.symm hline.1) hbody), @ih (r.collect [c]) hline.2 hbody,
        r.collect_cons c line]

end Feed

section Head

-- What a header line says of the length, after `n` was said of it.
def lengthAfter (n : Int) (line : Bytes) : Int :=
  let lowerLine := line.map toLower
  if startsWith lowerLine "content-length:" then toInt (lowerLine.drop 15) else n

def announcedLength (lines : List Bytes) : Int :=
  lines.foldl lengthAfter (-1)

def nextLine (r : Reader) (line : Bytes) : Reader :=
  { scanHeader r line with currentLine := [] }

structure IsLine (line : Bytes) : Prop where
  ends : ∃ text, line = text ++ [10] ∧ 10 ∉ text
  notBlank : isBlankLine line = false

variable {call : Call} {r : Reader} {line : Bytes}

theorem nextLine_collect (r : Reader) (text line : Bytes) :
    nextLine (r.collect text) line = nextLine r line := by
  unfold nextLine scanHeader Reader.collect
  dsimp only
  split_ifs <;> rfl

@[simp] theorem isBody_nextLine : (nextLine r line).isBody = r.isBody := by
  unfold nextLine scanHeader
  dsimp only
  split_ifs <;> rfl

@[simp] theorem readHead_nextLine : (nextLine r line).readHead = r.readHead := by
  unfold nextLine scanHeader
  dsimp only
  split_ifs <;> rfl

@[simp] theorem responseBuffer_nextLine :
    (nextLine r line).responseBuffer = r.responseBuffer := by
  unfold nextLine scanHeader
  dsimp only
  split_ifs <;> rfl

@[simp] theorem isFirstLine_nextLine : (nextLine r line).isFirstLine = false := by
  unfold nextLine scanHeader
  dsimp only
  split_ifs <;> simp_all

@[simp] theorem contentLength_nextLine :
    (nextLine r line).contentLength = lengthAfter r.contentLength line := by
  unfold nextLine scanHeader lengthAfter
  dsimp only
  split_ifs <;> rfl

theorem statusCode_nextLine : (nextLine r line).statusCode =
    if r.isFirstLine then parseStatus line r.statusCode else r.statusCode := by
  unfold nextLine scanHeader
  dsimp only
  split_ifs <;> rfl

theorem readLine_notBlank (h : isBlankLine line = false) :
    readLine r line = .go (nextLine r line) := by
  unfold readLine
  rw [h]
  rfl

theorem readLine_blank (h : isBlankLine line = true) :
    ∃ r', r'.isBody = true ∧ r'.readHead = r.readHead ∧ r'.responseBuffer = r.responseBuffer ∧
      r'.contentLength = lengthAfter r.contentLength line ∧
      r'.statusCode = (nextLine r line).statusCode ∧
      readLine r line = if lengthAfter r.contentLength line = 0 then .stop r' else .go r' := by
  have hlength := @contentLength_nextLine r line
  by_cases hzero : lengthAfter r.contentLength line = 0
  · refine ⟨{ scanHeader r line with isBody := true }, rfl, @readHead_nextLine r line,
      @responseBuffer_nextLine r line, hlength, rfl, ?_⟩
    unfold readLine
    rw [h, if_pos hzero]
    exact if_pos (hlength.trans hzero)
  · refine ⟨{ nextLine r line with isBody := true }, rfl, @readHead_nextLine r line,
      @responseBuffer_nextLine r line, hlength, rfl, ?_⟩
    unfold readLine
    rw [h, if_neg hzero]
    exact if_neg fun heq => hzero (hlength.symm.trans heq)

-- The lines of a head are read one after the other.
theorem feed_lines {lines : List Bytes} (hlines : ∀ line ∈ lines, IsLine line)
    (hbody : r.isBody = false) (hfresh : r.currentLine = []) (rest : Bytes) :
    feed call r (lines.flatten ++ rest) = feed call (lines.foldl nextLine r) rest := by
  induction lines generalizing r with
  | nil => rfl
  | cons line lines ih =>
      rw [List.forall_mem_cons] at hlines
      obtain ⟨text, rfl, htext⟩ := hlines.1.ends
      have hread := @feed_line call r text htext hbody (lines.flatten ++ rest)
      rw [hfresh, List.nil_append, readLine_notBlank hlines.1.notBlank, nextLine_collect] at hread
      rw [List.flatten_cons, List.append_assoc, List.append_assoc, List.singleton_append, hread,
        List.foldl_cons]
      exact ih hlines.2 (by rw [isBody_nextLine, hbody]) rfl

theorem contentLength_foldl (lines : List Bytes) :
    (lines.foldl nextLine r).contentLength = lines.foldl lengthAfter r.contentLength := by
  induction lines generalizing r with
  | nil => rfl
  | cons line lines ih => rw [List.foldl_cons, ih, contentLength_nextLine, List.foldl_cons]

theorem unchanged_foldl (lines : List Bytes) :
    (lines.foldl nextLine r).isBody = r.isBody ∧ (lines.foldl nextLine r).readHead = r.readHead ∧
      (lines.foldl nextLine r).responseBuffer = r.responseBuffer := by
  induction lines generalizing r with
  | nil => exact ⟨rfl, rfl, rfl⟩
  | cons line lines ih =>
      obtain ⟨hbody, hhead, hbuffer⟩ := @ih (nextLine r line)
      rw [isBody_nextLine] at hbody
      rw [readHead_nextLine] at hhead
      rw [responseBuffer_nextLine] at hbuffer
      exact ⟨hbody, hhead, hbuffer⟩

theorem currentLine_foldl (lines : List Bytes) (h : r.currentLine = []) :
    (lines.foldl nextLine r).currentLine = [] := by
  induction lines generalizing r with
  | nil => exact h
  | cons line lines ih => exact ih rfl

theorem isFirstLine_foldl {lines : List Bytes} (h : lines ≠ []) :
    (lines.foldl nextLine r).isFirstLine = false := by
  induction lines generalizing r with
  | nil => exact absurd rfl h
  | cons line lines ih =>
      cases lines with
      | nil => exact isFirstLine_nextLine
      | cons second lines => exact ih (List.cons_ne_nil _ _)

theorem lengthAfter_blank {n : Int} (h : isBlankLine line = true) : lengthAfter n line = n := by
  unfold isBlankLine at h
  rw [Bool.or_eq_true, decide_eq_true_eq, decide_eq_true_eq] at h
  rcases h with rfl | rfl
  · rfl
  · rfl

-- Put together: what a head leaves the loop with, up to its blank line.
theorem feed_head (call : Call) (lastResponseTs : UInt32) {lines : List Bytes}
    (hlines : ∀ line ∈ lines, IsLine line) {blank : Bytes} (hblank : isBlankLine blank = true)
    (rest : Bytes) :
    ∃ r, r.isBody = true ∧ r.readHead = 0 ∧ r.responseBuffer = call.memory ∧
      r.contentLength = announcedLength lines ∧
      (lines ≠ [] →
        r.statusCode = (lines.foldl nextLine (.start call.memory lastResponseTs)).statusCode) ∧
      feed call (.start call.memory lastResponseTs) (lines.flatten ++ blank ++ rest) =
        if announcedLength lines = 0 then some (.left r rest) else feed call r rest := by
  let before := lines.foldl nextLine (.start call.memory lastResponseTs)
  obtain ⟨hbody, hhead, hbuffer⟩ := @unchanged_foldl (.start call.memory lastResponseTs) lines
  have hlength : before.contentLength = announcedLength lines := contentLength_foldl lines
  have hcurrent : before.currentLine = [] := currentLine_foldl lines rfl
  obtain ⟨text, htext, hsplit⟩ : ∃ text, 10 ∉ text ∧ blank = text ++ [10] := by
    unfold isBlankLine at hblank
    rw [Bool.or_eq_true, decide_eq_true_eq, decide_eq_true_eq] at hblank
    rcases hblank with rfl | rfl
    · exact ⟨[13], by decide, rfl⟩
    · exact ⟨[], by decide, rfl⟩
  obtain ⟨r, hrBody, hrHead, hrBuffer, hrLength, hrStatus, hread⟩ :=
    @readLine_blank (before.collect text) blank hblank
  rw [lengthAfter_blank hblank] at hrLength hread
  refine ⟨r, hrBody, hrHead.trans hhead, hrBuffer.trans hbuffer, hrLength.trans hlength, ?_, ?_⟩
  · intro hne
    rw [hrStatus, nextLine_collect, statusCode_nextLine, isFirstLine_foldl hne]
    rfl
  · have hline := @feed_line call before text htext hbody rest
    rw [hcurrent, List.nil_append, ← hsplit, hread] at hline
    have hbytes : text ++ 10 :: rest = blank ++ rest := by
      rw [hsplit, List.append_assoc, List.singleton_append]
    change _ = match (if before.contentLength = 0 then Turn.stop r else Turn.go r) with
      | .go r => feed call r rest
      | .stop r => some (.left r rest) at hline
    rw [List.append_assoc, feed_lines hlines rfl rfl, ← hbytes, hline, hlength]
    split_ifs <;> rfl

end Head

section Body

-- One byte of the body, where the counter has room for it.
def takeIn (call : Call) (r : Reader) (c : UInt8) : Reader :=
  { r with
    responseBuffer := r.responseBuffer.map fun object =>
      if call.hasOutLen ∧ r.readHead < call.maxLen then object.set r.readHead c else object
    readHead := r.readHead + 1 }

def Fits (call : Call) (r : Reader) : Prop :=
  ∀ object, r.responseBuffer = some object → call.maxLen ≤ object.length

variable {call : Call} {r : Reader} {c : UInt8}

theorem fits_of_buffer (h : r.responseBuffer = call.memory) : Fits call r := by
  intro object hobject
  exact call.fits object (h ▸ hobject)

theorem Fits.takeIn (h : Fits call r) : Fits call (takeIn call r c) := by
  intro object hobject
  obtain ⟨before, hbefore, rfl⟩ := Option.map_eq_some_iff.mp hobject
  have hle := h before hbefore
  split_ifs
  · rw [List.length_set]
    exact hle
  · exact hle

theorem readByte_body (hbody : r.isBody = true) (hfits : Fits call r) (hroom : r.readHead < intMax) :
    readByte call r c =
      if 0 ≤ r.contentLength ∧ r.contentLength ≤ (r.readHead + 1 : Nat) then
        some (.stop (takeIn call r c)) else some (.go (takeIn call r c)) := by
  have hnext : increment r.readHead = some (r.readHead + 1) := if_pos hroom
  have hkeep : keep call r c = some (takeIn call r c).responseBuffer := by
    unfold keep takeIn
    cases hbuffer : r.responseBuffer with
    | none => rfl
    | some object =>
        have hle := hfits object hbuffer
        by_cases hstores : call.hasOutLen ∧ r.readHead < call.maxLen
        · have hstore : store object r.readHead c = some (object.set r.readHead c) :=
            if_pos (by omega)
          simp only [if_pos hstores, hstore, Option.map_some]
        · simp only [if_neg hstores, Option.map_some]
  unfold readByte readBody
  rw [if_pos hbody, hkeep]
  simp only [Option.bind_eq_bind, Option.bind_some, hnext]
  rfl

theorem readByte_overflow (hbody : r.isBody = true) (hroom : ¬ r.readHead < intMax) :
    readByte call r c = none := by
  have hnext : increment r.readHead = none := if_neg hroom
  unfold readByte readBody
  rw [if_pos hbody, Option.bind_eq_bind, Option.bind_eq_none_iff]
  intro responseBuffer _
  rw [hnext]
  rfl

-- By induction on the bytes: the loop is left with the last one that was announced.
theorem feed_announced {taken : Bytes} (hbody : r.isBody = true) (hfits : Fits call r)
    (hne : taken ≠ []) (hlength : r.contentLength = (r.readHead + taken.length : Nat))
    (hroom : r.readHead + taken.length ≤ intMax) (rest : Bytes) :
    feed call r (taken ++ rest) = some (.left (taken.foldl (takeIn call) r) rest) := by
  induction taken generalizing r with
  | nil => exact absurd rfl hne
  | cons c taken ih =>
      rw [List.length_cons] at hlength hroom
      have hbyte := @readByte_body call r c hbody hfits (by omega)
      rw [List.cons_append, List.foldl_cons]
      cases taken with
      | nil =>
          rw [List.length_nil] at hlength
          rw [if_pos ⟨by omega, by omega⟩] at hbyte
          exact feed_stop hbyte rest
      | cons d taken =>
          rw [List.length_cons] at hlength hroom ih
          rw [if_neg (by omega)] at hbyte
          rw [feed_go hbyte]
          refine ih (r := takeIn call r c) hbody hfits.takeIn (List.cons_ne_nil _ _) ?_ ?_
          · change r.contentLength = (r.readHead + 1 + (taken.length + 1) : Nat)
            omega
          · change r.readHead + 1 + (taken.length + 1) ≤ intMax
            omega

theorem feed_unfinished {bytes : Bytes} (hbody : r.isBody = true) (hfits : Fits call r)
    (hlength : r.contentLength < 0 ∨ (r.readHead + bytes.length : Nat) < r.contentLength)
    (hroom : r.readHead + bytes.length ≤ intMax) :
    feed call r bytes = some (.waiting (bytes.foldl (takeIn call) r)) := by
  induction bytes generalizing r with
  | nil => rfl
  | cons c bytes ih =>
      rw [List.length_cons] at hlength hroom
      have hbyte := @readByte_body call r c hbody hfits (by omega)
      rw [if_neg (by omega)] at hbyte
      rw [feed_go hbyte, List.foldl_cons]
      refine ih (r := takeIn call r c) hbody hfits.takeIn ?_ ?_
      · change r.contentLength < 0 ∨ ((r.readHead + 1 + bytes.length : Nat) : Int) < r.contentLength
        omega
      · change r.readHead + 1 + bytes.length ≤ intMax
        omega

theorem feed_overflow {bytes : Bytes} (hbody : r.isBody = true) (hfits : Fits call r)
    (hlength : r.contentLength < 0) (hroom : intMax < r.readHead + bytes.length)
    (hstart : r.readHead ≤ intMax) : feed call r bytes = none := by
  induction bytes generalizing r with
  | nil =>
      rw [List.length_nil] at hroom
      omega
  | cons c bytes ih =>
      rw [List.length_cons] at hroom
      by_cases hhere : r.readHead < intMax
      · have hbyte := @readByte_body call r c hbody hfits hhere
        rw [if_neg (by omega)] at hbyte
        rw [feed_go hbyte]
        refine ih (r := takeIn call r c) hbody hfits.takeIn hlength ?_ ?_
        · change intMax < r.readHead + 1 + bytes.length
          omega
        · change r.readHead + 1 ≤ intMax
          omega
      · rw [feed, readByte_overflow hbody hhere]
        rfl

end Body

end Stra2us.IoTClient
