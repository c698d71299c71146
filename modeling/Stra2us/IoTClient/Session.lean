import Stra2us.IoTClient.Framing
import Stra2us.IoTClient.Request
import Stra2us.Server.Network
import Stra2us.Server.Submit

namespace Stra2us.IoTClient

open Foundation Server Kv Kv.Implementation

section Numbers

theorem digitByte_natText {n : Nat} {b : UInt8} (h : b ∈ utf8 (natText n)) : isDigitByte b := by
  rw [utf8_of_ascii fun c hc => natText_ascii hc] at h
  obtain ⟨c, hc, rfl⟩ := List.mem_map.mp h
  have hdigit := Char.isDigit_iff_toNat.mp (isDigit_of_mem_natText hc)
  simp only [isDigitByte, Bool.and_eq_true, decide_eq_true_eq, UInt8.le_iff_toNat_le,
    UInt8.toNat_ofNat', UInt8.reduceToNat]
  simp at hdigit
  omega

-- The digits that a number is written with count for it again.
theorem digitsValue_natText (n : Nat) : digitsValue (utf8 (natText n)) = n := by
  have hfold (text : Text) (hdigits : ∀ c ∈ text, c.isDigit) (start : Nat) :
      (text.map fun c => UInt8.ofNat c.toNat).foldl (fun n b => n * 10 + (b.toNat - 48)) start =
        Nat.ofDigitChars 10 text start := by
    induction text generalizing start with
    | nil => rfl
    | cons c rest ih =>
        have hc := Char.isDigit_iff_toNat.mp (hdigits c List.mem_cons_self)
        have hbyte : (UInt8.ofNat c.toNat).toNat = c.toNat := by
          rw [UInt8.toNat_ofNat']
          simp at hc
          omega
        rw [List.map_cons, List.foldl_cons, hbyte,
          ih fun d hd => hdigits d (List.mem_cons_of_mem _ hd)]
        simp [Nat.ofDigitChars, Nat.mul_comm]
  unfold digitsValue
  rw [utf8_of_ascii fun c hc => natText_ascii hc, hfold _ fun c hc => isDigit_of_mem_natText hc]
  simp [natText, Nat.ofDigitChars_ten_toDigits]

theorem intText_small {t : Int} {b : UInt8} (h : b ∈ utf8 (intText t)) : b.toNat < 65 := by
  have hdigit {n : Nat} (h : b ∈ utf8 (natText n)) : b.toNat < 65 := by
    have hrange := isDigitByte_range (digitByte_natText h)
    omega
  cases t with
  | ofNat n => exact hdigit h
  | negSucc n =>
      have hminus : utf8 (intText (.negSucc n)) = 45 :: utf8 (natText (n + 1)) := rfl
      rw [hminus] at h
      rcases List.mem_cons.mp h with rfl | h
      · decide
      · exact hdigit h

-- A number with blanks around it is read as itself, as far as a `long` goes.
theorem toInt_intText {before after : Bytes} (hbefore : ∀ b ∈ before, isBlankByte b)
    (hafter : ∀ b ∈ after.head?, isDigitByte b = false) (t : Int) :
    toInt (before ++ utf8 (intText t) ++ after) = clampLong t := by
  have hdigits (n : Nat) : ∀ b ∈ utf8 (natText n), isDigitByte b := fun b => digitByte_natText
  cases t with
  | ofNat n =>
      have hread := toInt_digits hbefore (utf8_ne_nil (natText_ne_nil n)) (hdigits n) hafter
      rw [digitsValue_natText] at hread
      exact hread
  | negSucc n =>
      have hminus : utf8 (intText (.negSucc n)) = 45 :: utf8 (natText (n + 1)) := rfl
      have hdrop : (before ++ utf8 (intText (.negSucc n)) ++ after).dropWhile isBlankByte =
          45 :: (utf8 (natText (n + 1)) ++ after) := by
        rw [hminus, List.append_assoc, List.dropWhile_append_of_pos hbefore, List.cons_append,
          List.dropWhile_cons_of_neg (by decide)]
      have htake : (utf8 (natText (n + 1)) ++ after).takeWhile isDigitByte =
          utf8 (natText (n + 1)) := by
        rw [List.takeWhile_append_of_pos (hdigits (n + 1))]
        cases after with
        | nil => simp
        | cons b rest =>
            rw [List.takeWhile_cons_of_neg (by rw [hafter b rfl]; decide), List.append_nil]
      unfold toInt
      rw [hdrop]
      change clampLong (-(digitsValue
        ((utf8 (natText (n + 1)) ++ after).takeWhile isDigitByte) : Int)) = _
      rw [htake, digitsValue_natText]
      rfl

end Numbers

section Stamp

-- What a line of the head leaves as the time of the response.
def stampAfter (ts : UInt32) (line : Bytes) : UInt32 :=
  let lowerLine := line.map toLower
  if startsWith lowerLine "x-response-timestamp:" then
    UInt32.ofNat (toInt (lowerLine.drop 21) % 2 ^ 32).toNat
  else ts

def isResponseTimestamp (name : Bytes) : Bool :=
  name.map toLower = utf8 "x-response-timestamp".toList

-- The time with blanks around it.
def SaysTime (value : Bytes) (t : Int) : Prop :=
  ∃ before after, value = before ++ utf8 (intText t) ++ after ∧
    (∀ b ∈ before, b = 32 ∨ b = 9) ∧ ∀ b ∈ after, b = 32 ∨ b = 9

-- The clock of the server in the `uint32_t` of the client.
def stampOf (t : Int) : UInt32 :=
  UInt32.ofNat (clampLong t % 2 ^ 32).toNat

variable {r : Reader} {header : Bytes × Bytes} {t : Int}

theorem lastResponseTs_nextLine (line : Bytes) :
    (nextLine r line).lastResponseTs = stampAfter r.lastResponseTs line := by
  unfold nextLine scanHeader stampAfter
  dsimp only
  split_ifs <;> rfl

theorem lastResponseTs_foldl (lines : List Bytes) :
    (lines.foldl nextLine r).lastResponseTs = lines.foldl stampAfter r.lastResponseTs := by
  induction lines generalizing r with
  | nil => rfl
  | cons line lines ih => rw [List.foldl_cons, ih, lastResponseTs_nextLine, List.foldl_cons]

theorem toInt_timeValue {value : Bytes} (h : SaysTime value t) :
    toInt ((value ++ [13, 10]).map toLower) = clampLong t := by
  obtain ⟨before, after, rfl, hbefore, hafter⟩ := h
  have hows {bytes : Bytes} (h : ∀ b ∈ bytes, b = 32 ∨ b = 9) : ∀ b ∈ bytes, b.toNat < 65 := by
    intro b hb
    rcases h b hb with rfl | rfl
    · decide
    · decide
  have hsmall : ∀ b ∈ before ++ utf8 (intText t) ++ after ++ [13, 10], b.toNat < 65 := by
    intro b hb
    simp only [List.mem_append, List.mem_cons, List.not_mem_nil, or_false] at hb
    rcases hb with ((hb | hb) | hb) | rfl | rfl
    · exact hows hbefore b hb
    · exact intText_small hb
    · exact hows hafter b hb
    · decide
    · decide
  have hblank : ∀ b ∈ before, isBlankByte b := by
    intro b hb
    rcases hbefore b hb with rfl | rfl
    · rfl
    · rfl
  have hstop : ∀ b ∈ (after ++ [13, 10]).head?, isDigitByte b = false := by
    intro b hb
    cases after with
    | nil =>
        obtain rfl := Option.some.inj hb
        rfl
    | cons first rest =>
        obtain rfl := Option.some.inj hb
        rcases hafter first (by simp) with rfl | rfl
        · rfl
        · rfl
  rw [map_toLower_small hsmall, List.append_assoc]
  exact toInt_intText hblank hstop t

theorem stampAfter_header (hname : ∀ b ∈ header.1, isTokenByte b)
    (htime : isResponseTimestamp header.1 → SaysTime header.2 t) (before : UInt32) :
    stampAfter before (HttpResponse.headerLine header) =
      if isResponseTimestamp header.1 then stampOf t else before := by
  have hline : (HttpResponse.headerLine header).map toLower =
      header.1.map toLower ++ 58 :: (header.2 ++ [13, 10]).map toLower := by
    unfold HttpResponse.headerLine
    rw [List.append_assoc, List.map_append]
    rfl
  have hknown : utf8 "x-response-timestamp:".toList =
      utf8 "x-response-timestamp".toList ++ [58] := by
    decide
  have hstarts : startsWith ((HttpResponse.headerLine header).map toLower)
      "x-response-timestamp:" = isResponseTimestamp header.1 := by
    unfold startsWith isResponseTimestamp
    rw [hline, hknown, Bool.eq_iff_iff,
      startsWith_name (colon_notMem_name hname) (by decide), decide_eq_true_eq]
  unfold stampAfter
  dsimp only
  rw [hstarts]
  by_cases hstamp : isResponseTimestamp header.1 = true
  · have hname' : header.1.map toLower = utf8 "x-response-timestamp".toList :=
      of_decide_eq_true hstamp
    have hwidth : (utf8 "x-response-timestamp".toList ++ [58]).length = 21 := by decide
    have hdrop : ((HttpResponse.headerLine header).map toLower).drop 21 =
        (header.2 ++ [13, 10]).map toLower := by
      have hsplit : header.1.map toLower ++ 58 :: (header.2 ++ [13, 10]).map toLower =
          (utf8 "x-response-timestamp".toList ++ [58]) ++ (header.2 ++ [13, 10]).map toLower := by
        rw [hname', List.append_assoc, List.singleton_append]
      rw [hline, hsplit, ← hwidth, List.drop_left]
    rw [if_pos hstamp, if_pos hstamp, hdrop, toInt_timeValue (htime hstamp)]
    rfl
  · rw [if_neg hstamp, if_neg hstamp]

theorem foldl_stampAfter (headers : List (Bytes × Bytes))
    (hnames : ∀ header ∈ headers, ∀ b ∈ header.1, isTokenByte b)
    (htimes : ∀ header ∈ headers, isResponseTimestamp header.1 → SaysTime header.2 t)
    (before : UInt32) :
    (headers.map HttpResponse.headerLine).foldl stampAfter before =
      if headers.any fun header => isResponseTimestamp header.1 then stampOf t else before := by
  induction headers generalizing before with
  | nil => rfl
  | cons header headers ih =>
      rw [List.forall_mem_cons] at hnames htimes
      rw [List.map_cons, List.foldl_cons, ih hnames.2 htimes.2,
        stampAfter_header hnames.1 htimes.1, List.any_cons]
      cases isResponseTimestamp header.1 with
      | true => simp
      | false =>
          rw [Bool.false_or]
          rfl

theorem stampAfter_statusLine (response : HttpResponse) (before : UInt32) :
    stampAfter before response.statusLine = before := by
  have hfirst : ∃ rest, response.statusLine.map toLower = 104 :: rest := ⟨_, rfl⟩
  obtain ⟨rest, hrest⟩ := hfirst
  have hstarts : startsWith (response.statusLine.map toLower) "x-response-timestamp:" = false := by
    rw [hrest]
    rfl
  unfold stampAfter
  dsimp only
  rw [hstarts]
  rfl

end Stamp

section Heard

-- What a call keeps of a body.
def Call.kept (call : Call) (body : Bytes) : Option Bytes :=
  if call.hasOutLen then call.memory.map (written call.maxLen 0 body) else call.memory

variable {call : Call} {r : Reader}

theorem kept_foldl (hfits : Fits call r) (hbuffer : r.responseBuffer = call.memory)
    (hhead : r.readHead = 0) (body : Bytes) :
    (body.foldl (takeIn call) r).responseBuffer = call.kept body := by
  unfold Call.kept
  by_cases hout : call.hasOutLen = true
  · rw [if_pos hout, responseBuffer_foldl hfits hout, hbuffer, hhead]
  · have hskip (r : Reader) (body : Bytes) :
        (body.foldl (takeIn call) r).responseBuffer = r.responseBuffer := by
      induction body generalizing r with
      | nil => rfl
      | cons c body ih =>
          have hone : (takeIn call r c).responseBuffer = r.responseBuffer := by
            unfold takeIn
            simp only [hout, false_and, if_false, Option.map_id', Bool.false_eq_true]
          rw [List.foldl_cons, ih, hone]
    rw [if_neg hout, hskip, hbuffer]

theorem lastResponseTs_takeIn (body : Bytes) :
    (body.foldl (takeIn call) r).lastResponseTs = r.lastResponseTs := by
  induction body generalizing r with
  | nil => rfl
  | cons c body ih => exact @ih (takeIn call r c)

-- Behind the head the reader is as the lines have left it.
theorem feed_blank {lines : List Bytes} (hne : lines ≠ []) (hlines : ∀ line ∈ lines, IsLine line)
    (lastResponseTs : UInt32) (rest : Bytes) :
    ∃ r, r.isBody = true ∧ r.readHead = 0 ∧ r.responseBuffer = call.memory ∧
      r.contentLength = announcedLength lines ∧
      r.statusCode = (lines.foldl nextLine (.start call.memory lastResponseTs)).statusCode ∧
      r.lastResponseTs = lines.foldl stampAfter lastResponseTs ∧
      feed call (.start call.memory lastResponseTs) (lines.flatten ++ [13, 10] ++ rest) =
        if announcedLength lines = 0 then some (.left r rest) else feed call r rest := by
  let before := lines.foldl nextLine (.start call.memory lastResponseTs)
  obtain ⟨hbody, hhead, hbuffer⟩ := @unchanged_foldl (.start call.memory lastResponseTs) lines
  have hlength : before.contentLength = announcedLength lines := contentLength_foldl lines
  have hcurrent : before.currentLine = [] := currentLine_foldl lines rfl
  have hfirst : before.isFirstLine = false := isFirstLine_foldl hne
  have hstamp : before.lastResponseTs = lines.foldl stampAfter lastResponseTs :=
    lastResponseTs_foldl lines
  have hscan : scanHeader (before.collect [13]) [13, 10] = before.collect [13] := by
    have hfirst' : (before.collect [13]).isFirstLine = false := hfirst
    have hlength' : startsWith ([13, 10].map toLower) "content-length:" = false := by
      decide
    have htime : startsWith ([13, 10].map toLower) "x-response-timestamp:" = false := by
      decide
    unfold scanHeader
    simp only [hfirst', hlength', htime, Bool.false_eq_true, if_false]
  have hturn := @feed_line call before [13] (by decide) hbody rest
  have hbytes : [13] ++ 10 :: rest = [13, 10] ++ rest := rfl
  have hread : readLine (before.collect [13]) [13, 10] =
      if before.contentLength = 0 then .stop { before.collect [13] with isBody := true }
      else .go { before.collect [13] with isBody := true, currentLine := [] } := by
    unfold readLine
    rw [hscan]
    rfl
  have hsplit : lines.flatten ++ [13, 10] ++ rest = lines.flatten ++ ([13, 10] ++ rest) := by
    rw [List.append_assoc]
  have hline : before.currentLine ++ [13] ++ [10] = [13, 10] := by
    rw [hcurrent]
    rfl
  rw [hbytes, hline, hread, hlength] at hturn
  by_cases hzero : announcedLength lines = 0
  · rw [if_pos hzero] at hturn
    refine ⟨{ before.collect [13] with isBody := true }, rfl, hhead, hbuffer, hlength, rfl, hstamp,
      ?_⟩
    rw [hsplit, feed_lines hlines rfl rfl, if_pos hzero]
    exact hturn
  · rw [if_neg hzero] at hturn
    refine ⟨{ before.collect [13] with isBody := true, currentLine := [] }, rfl, hhead, hbuffer,
      hlength, rfl, hstamp, ?_⟩
    rw [hsplit, feed_lines hlines rfl rfl, if_neg hzero]
    exact hturn

-- A response that says its length is read to its end, with all that it says.
theorem feed_heard {response : HttpResponse}
    (hheader : response.headers.any fun header => isContentLength header.1)
    (hsmall : response.body.length ≤ intMax) (lastResponseTs : UInt32) (next : Bytes) :
    ∃ r, feed call (.start call.memory lastResponseTs) (response.bytes ++ next) =
        some (.left r next) ∧
      r.statusCode = response.statusCode ∧ r.readHead = response.body.length ∧
      r.responseBuffer = call.kept response.body ∧
      r.lastResponseTs =
        (response.headers.map HttpResponse.headerLine).foldl stampAfter lastResponseTs := by
  have hne : response.lines ≠ [] := List.cons_ne_nil _ _
  obtain ⟨r, hbody, hhead, hbuffer, hlength, hstatus, hstamp, hfeed⟩ :=
    @feed_blank call _ hne (isLine_lines response) lastResponseTs (response.body ++ next)
  have hcode : r.statusCode = response.statusCode := by
    have hrest := @statusCode_foldl (nextLine (.start call.memory lastResponseTs)
      response.statusLine) isFirstLine_nextLine (response.headers.map HttpResponse.headerLine)
    rw [statusCode_nextLine] at hrest
    change _ = (if true = true then parseStatus _ _ else _) ∧ _ at hrest
    rw [if_pos rfl, parseStatus_statusLine] at hrest
    exact hstatus.trans hrest.1
  have htime : r.lastResponseTs =
      (response.headers.map HttpResponse.headerLine).foldl stampAfter lastResponseTs := by
    rw [hstamp, HttpResponse.lines, List.foldl_cons, stampAfter_statusLine]
  have hannounced : announcedLength response.lines = response.body.length := by
    rw [announcedLength_lines, if_pos hheader, clampLong_small hsmall]
  have hbytes : response.bytes ++ next =
      response.lines.flatten ++ [13, 10] ++ (response.body ++ next) := by
    rw [HttpResponse.bytes, List.append_assoc]
  have hkept := kept_foldl (fits_of_buffer hbuffer) hbuffer hhead response.body
  have hcount : (response.body.foldl (takeIn call) r).readHead = response.body.length := by
    rw [readHead_foldl, hhead, Nat.zero_add]
  refine ⟨response.body.foldl (takeIn call) r, ?_, (takeIn_statusCode _ _).trans hcode, hcount,
    hkept, (lastResponseTs_takeIn _).trans htime⟩
  rw [hannounced] at hlength hfeed
  rw [hbytes, hfeed]
  by_cases hempty : response.body = []
  · rw [hempty]
    rfl
  · have hpos := List.length_pos_of_ne_nil hempty
    rw [if_neg (by omega)]
    exact feed_announced hbody (fits_of_buffer hbuffer) hempty
      (by rw [hlength, hhead, Nat.zero_add]) (by omega) next

-- A response that does not is waited behind.
theorem feed_silent {response : HttpResponse}
    (hheader : (response.headers.any fun header => isContentLength header.1) = false)
    (hbody : response.body = []) (lastResponseTs : UInt32) :
    ∃ r, feed call (.start call.memory lastResponseTs) response.bytes = some (.waiting r) := by
  obtain ⟨r, -, -, -, -, -, hfeed⟩ := feed_response call lastResponseTs response response.body
  have hannounced : announcedLength response.lines = -1 := by
    rw [announcedLength_lines, hheader]
    rfl
  rw [hannounced, if_neg (by decide)] at hfeed
  refine ⟨r, ?_⟩
  rw [HttpResponse.bytes, hfeed, hbody]
  rfl

end Heard

section Session

-- What the web server is given to write out.
structure Reply where
  status : Nat
  body : Bytes
  timestamp : Option Int
deriving DecidableEq

-- A status of other than three digits is an error of the server's.
structure Writes (reply : Reply) (response : HttpResponse) : Prop where
  status : response.statusCode =
    if 100 ≤ reply.status ∧ reply.status < 1000 then reply.status else 500
  body : response.body = reply.body
  length : (response.headers.any fun header => isContentLength header.1) = true ↔
    reply.status ≠ 204
  time : ∀ t, reply.timestamp = some t → ∀ header ∈ response.headers,
    isResponseTimestamp header.1 → SaysTime header.2 t
  stamped : (response.headers.any fun header => isResponseTimestamp header.1) =
    reply.timestamp.isSome

-- The server behind one connection, and how its answers are written at a time of its clock.
-- Every answer but a 204 comes with its length.
structure Service where
  server : HttpServer
  site : Site
  fuel : Nat
  errorPage : Exn → Bytes
  write : Int → Reply → HttpResponse
  writes : ∀ now reply, (reply.status = 204 → reply.body = []) → Writes reply (write now reply)

-- One call of the device, with what its clock and the clock of the server then say, and with what
-- others have made of the store since the call before.
structure Asked where
  op : Operation
  call : Call
  ts : UInt32
  now : Int
  meanwhile : Store → Store

-- What the server has when the call comes in.
def Asked.found (asked : Asked) (w : World) : World :=
  { w with store := asked.meanwhile w.store, clock := asked.now }

-- The name fits, the clocks are together, no digest is another one by chance, and nobody has
-- changed what the server knows of the client.
structure Asked.Sendable (hmac : Hmac) (context : Context) (asked : Asked) : Prop where
  fits : asked.op.Fits
  fresh : verifyTimestamp asked.now asked.ts.toNat = true
  told : asked.op.Told hmac context asked.ts
  keeps : ∀ store, ∀ k ∈ [clientSecretKey context.clientId, clientAclKey context.clientId],
    (asked.meanwhile store).get k = store.get k

-- The two ends of a connection: what each has not read yet is behind it.
structure Link where
  world : World
  lastResponseTs : UInt32
  toServer : Bytes
  toClient : Bytes

namespace Service

variable (service : Service) (setup : Setup)

-- A 204 is sent without a body.
def sent (status : Nat) (body : Bytes) (timestamp : Option Int) : Reply :=
  ⟨status, if status = 204 then [] else body, timestamp⟩

def reply : Except Exn Answer → Reply
  | .ok (.device response) => sent response.status response.body (some response.timestamp)
  | .ok .admin => sent 200 [] none
  | .ok (.redirect _) => sent 303 [] none
  | .error (.http status detail) => sent status (service.errorPage (.http status detail)) none
  | .error exn => sent 500 (service.errorPage exn) none

-- A call over the connection, byte by byte; a client that waits for more has no outcome.
def step (asked : Asked) (link : Link) : Option (Response × Link) := do
  let bytes ← asked.op.bytes service.site.hmac setup asked.ts
  let (m, toServer) ← HttpMessage.read (link.toServer ++ bytes)
  let served := (Device.serve service.server service.site service.fuel (received m)).runOn
    (asked.found link.world)
  let response := service.write asked.now (service.reply served.1)
  match ← feed asked.call (.start asked.call.memory link.lastResponseTs)
      (link.toClient ++ response.bytes) with
  | .left r rest =>
      some (⟨r.statusCode, r.responseBuffer,
        if asked.call.hasOutLen then some r.readHead else none, r.lastResponseTs⟩,
          ⟨served.2, r.lastResponseTs, toServer, rest⟩)
  | .waiting _ => none

def run : List Asked → Link → Option (List Response × Link)
  | [], link => some ([], link)
  | asked :: rest, link => do
      let (response, link) ← service.step setup asked link
      let (responses, link) ← run rest link
      some (response :: responses, link)

-- The same calls made of the handlers themselves.
def answer (context : Context) (asked : Asked) (w : World) : Reply × World :=
  let signature := asked.op.signature service.site.hmac context asked.ts
  let request := asked.op.request setup signature asked.ts
  let served := (asked.op.handler service.site service.fuel context request).runOn (asked.found w)
  (service.reply served.1, served.2)

def answers (context : Context) : List Asked → World → List Reply × World
  | [], w => ([], w)
  | asked :: rest, w =>
      let (reply, w) := service.answer setup context asked w
      let (replies, w) := answers context rest w
      (reply :: replies, w)

-- What a caller has of an answer.
def heard (asked : Asked) (reply : Reply) (lastResponseTs : UInt32) : Response where
  statusCode := (service.write asked.now reply).statusCode
  responseBuffer := asked.call.kept reply.body
  outLen := if asked.call.hasOutLen then some reply.body.length else none
  lastResponseTs := (reply.timestamp.map stampOf).getD lastResponseTs

def heardAll : List Asked → List Reply → UInt32 → List Response
  | asked :: rest, reply :: replies, ts =>
      service.heard asked reply ts ::
        heardAll rest replies (service.heard asked reply ts).lastResponseTs
  | _, _, _ => []

def lastStamp (replies : List Reply) (ts : UInt32) : UInt32 :=
  replies.foldl (fun ts reply => (reply.timestamp.map stampOf).getD ts) ts

theorem reply_body (result : Except Exn Answer) :
    (service.reply result).status = 204 → (service.reply result).body = [] := by
  have hsent (status : Nat) (body : Bytes) (ts : Option Int) :
      (sent status body ts).status = 204 → (sent status body ts).body = [] :=
    fun h => if_pos h
  cases result with
  | ok answer =>
      cases answer with
      | device response => exact hsent _ _ _
      | admin => exact hsent _ _ _
      | redirect url => exact hsent _ _ _
  | error exn =>
      cases exn with
      | http status detail => exact hsent _ _ _
      | python name => exact hsent _ _ _
      | outOfFuel => exact hsent _ _ _

variable {service setup} {context : Context} {w : World}

-- No call of a device changes what the server knows of a client.
theorem handler_keeps {op : Operation} {request : Request} {jsonDepth : Nat}
    (h : setup.Known context jsonDepth w) : setup.Known context jsonDepth
      ((op.handler service.site service.fuel context request).runOn w).2 := by
  have hissues : (op.handler service.site service.fuel context request).Issues
      (OnlyOverwrites (op.call service.fuel context request).overwrites) := by
    unfold Operation.handler
    split
    · exact Call.issues service.site _
    · exact Handler.issues_throw _
  have hsecret : ¬ (op.call service.fuel context request).overwrites
      (clientSecretKey context.clientId) := by
    cases op <;> simp [Operation.call, Call.overwrites, clientSecretKey_eq, kvKey_eq, encKey_eq,
      cursorKey_eq]
  have hacl : ¬ (op.call service.fuel context request).overwrites
      (clientAclKey context.clientId) := by
    cases op <;> simp [Operation.call, Call.overwrites, clientAclKey_eq, kvKey_eq, encKey_eq,
      cursorKey_eq]
  have hnonce (clientId : Text) : clientSecretKey context.clientId ≠ nonceKey clientId := by
    simp [clientSecretKey_eq, nonceKey_eq]
  have hnonce' (clientId : Text) : clientAclKey context.clientId ≠ nonceKey clientId := by
    simp [clientAclKey_eq, nonceKey_eq]
  exact ⟨h.secret, h.clientId, (Handler.get_of_issues hissues hsecret hnonce w).trans h.stored,
    by rw [Handler.get_of_issues hissues hacl hnonce' w, h.acl]⟩

theorem known_found {asked : Asked} {hmac : Hmac} {jsonDepth : Nat}
    (h : setup.Known context jsonDepth w) (hone : asked.Sendable hmac context) :
    setup.Known context jsonDepth (asked.found w) where
  secret := h.secret
  clientId := h.clientId
  stored := (hone.keeps w.store _ (by simp)).trans h.stored
  acl := by
    have hacl := h.acl
    rwa [← hone.keeps w.store (clientAclKey context.clientId) (by simp)] at hacl

theorem answer_keeps {asked : Asked} {hmac : Hmac}
    (h : setup.Known context service.site.jsonDepth w) (hone : asked.Sendable hmac context) :
    setup.Known context service.site.jsonDepth (service.answer setup context asked w).2 :=
  handler_keeps (known_found h hone)

-- One call over a connection with nothing left on it.
theorem step_clean {asked : Asked}
    (hdigest : ∀ key message, (service.site.hmac key message).length = 32)
    (hsetup : setup.Printable) (hknown : setup.Known context service.site.jsonDepth w)
    (hone : asked.Sendable service.site.hmac context)
    (hsmall : (service.answer setup context asked w).1.body.length ≤ intMax) (ts : UInt32) :
    service.step setup asked ⟨w, ts, [], []⟩ =
      if (service.answer setup context asked w).1.status = 204 then none
      else some (service.heard asked (service.answer setup context asked w).1 ts,
        ⟨(service.answer setup context asked w).2,
          (service.heard asked (service.answer setup context asked w).1 ts).lastResponseTs,
            [], []⟩) := by
  obtain ⟨bytes, hbytes, hread⟩ := @serve_call setup asked.op asked.ts service.server
    (asked.found w) context service.site service.fuel hdigest hsetup hone.fits
    (known_found hknown hone) hone.fresh hone.told
  obtain ⟨m, hm, hserved⟩ := hread []
  rw [List.append_nil] at hm
  let reply := (service.answer setup context asked w).1
  let response := service.write asked.now reply
  have hwrites : Writes reply response := service.writes asked.now reply (service.reply_body _)
  have hreply : service.reply ((Device.serve service.server service.site service.fuel
      (received m)).runOn (asked.found w)).1 = reply := by
    rw [hserved]
    rfl
  have hworld : ((Device.serve service.server service.site service.fuel
      (received m)).runOn (asked.found w)).2 =
        (service.answer setup context asked w).2 := by
    rw [hserved]
    rfl
  unfold step
  rw [hbytes]
  simp only [Option.bind_eq_bind, Option.bind_some, List.nil_append]
  rw [hm]
  simp only [Option.bind_some]
  rw [hreply, hworld]
  change (feed asked.call (.start asked.call.memory ts) response.bytes).bind _ =
    if reply.status = 204 then none else _
  by_cases hnone : reply.status = 204
  · have hheader : (response.headers.any fun header => isContentLength header.1) = false := by
      rw [Bool.eq_false_iff]
      exact fun h => hwrites.length.mp h hnone
    have hempty : response.body = [] := hwrites.body.trans (service.reply_body _ hnone)
    obtain ⟨r, hfeed⟩ := @feed_silent asked.call response hheader hempty ts
    rw [hfeed, if_pos hnone]
    rfl
  · have hheader := hwrites.length.mpr hnone
    obtain ⟨r, hfeed, hstatus, hcount, hkept, hstamp⟩ := @feed_heard asked.call response hheader
      (by rw [hwrites.body]; exact hsmall) ts []
    rw [List.append_nil] at hfeed
    have htime : r.lastResponseTs = (service.heard asked reply ts).lastResponseTs := by
      rw [hstamp]
      cases hts : reply.timestamp with
      | none =>
          have hno := hwrites.stamped
          rw [hts] at hno
          have hsays : ∀ header ∈ response.headers, isResponseTimestamp header.1 →
              SaysTime header.2 0 := by
            intro header hheader hstamp
            exact absurd hstamp (by simpa using List.any_eq_false.mp hno header hheader)
          rw [foldl_stampAfter response.headers response.names hsays, hno]
          simp only [heard, hts]
          rfl
      | some t =>
          have hyes := hwrites.stamped
          rw [hts] at hyes
          rw [foldl_stampAfter response.headers response.names (hwrites.time t hts), hyes]
          simp only [heard, hts]
          rfl
    rw [hfeed, if_neg hnone]
    simp only [Option.bind_some]
    rw [hstatus, hcount, hkept, htime, hwrites.body]
    rfl

theorem run_answers (hdigest : ∀ key message, (service.site.hmac key message).length = 32)
    (hsetup : setup.Printable) (asked : List Asked)
    (hknown : setup.Known context service.site.jsonDepth w)
    (hasked : ∀ one ∈ asked, one.Sendable service.site.hmac context)
    (hsmall : ∀ reply ∈ (service.answers setup context asked w).1, reply.body.length < 2 ^ 31)
    (ts : UInt32) :
    service.run setup asked ⟨w, ts, [], []⟩ =
      if ∀ reply ∈ (service.answers setup context asked w).1, reply.status ≠ 204 then
        some (service.heardAll asked (service.answers setup context asked w).1 ts,
          ⟨(service.answers setup context asked w).2,
            lastStamp (service.answers setup context asked w).1 ts, [], []⟩)
      else none := by
  induction asked generalizing w ts with
  | nil => rfl
  | cons one rest ih =>
      rw [List.forall_mem_cons] at hasked
      obtain ⟨hone, hrest⟩ := hasked
      have hanswers : service.answers setup context (one :: rest) w =
          ((service.answer setup context one w).1 ::
            (service.answers setup context rest (service.answer setup context one w).2).1,
          (service.answers setup context rest (service.answer setup context one w).2).2) := rfl
      rw [hanswers] at hsmall ⊢
      dsimp only at hsmall ⊢
      rw [List.forall_mem_cons] at hsmall
      have hle : (service.answer setup context one w).1.body.length ≤ intMax := by
        have hlt := hsmall.1
        unfold intMax
        omega
      have hstep := step_clean hdigest hsetup hknown hone hle ts
      have htail := ih (answer_keeps hknown hone) hrest hsmall.2
        (service.heard one (service.answer setup context one w).1 ts).lastResponseTs
      unfold run
      rw [hstep]
      by_cases hnone : (service.answer setup context one w).1.status = 204
      · rw [if_pos hnone, if_neg fun h => h _ List.mem_cons_self hnone]
        rfl
      · rw [if_neg hnone]
        simp only [Option.bind_eq_bind, Option.bind_some, htail, List.forall_mem_cons, ne_eq,
          hnone, not_false_eq_true, true_and]
        split
        · rfl
        · rfl

-- So a run of which no answer is a 204 comes to its end.
theorem exists_run {asked : List Asked}
    (hdigest : ∀ key message, (service.site.hmac key message).length = 32)
    (hsetup : setup.Printable) (hknown : setup.Known context service.site.jsonDepth w)
    (hasked : ∀ one ∈ asked, one.Sendable service.site.hmac context)
    (hanswers : ∀ reply ∈ (service.answers setup context asked w).1,
      reply.status ≠ 204 ∧ reply.body.length < 2 ^ 31) (ts : UInt32) :
    ∃ responses link, service.run setup asked ⟨w, ts, [], []⟩ = some (responses, link) := by
  have hsmall : ∀ reply ∈ (service.answers setup context asked w).1,
      reply.body.length < 2 ^ 31 := fun reply hreply => (hanswers reply hreply).2
  rw [run_answers hdigest hsetup asked hknown hasked hsmall ts]
  exact ⟨_, _, if_pos fun reply hreply => (hanswers reply hreply).1⟩

theorem length_answers (asked : List Asked) :
    (service.answers setup context asked w).1.length = asked.length := by
  induction asked generalizing w with
  | nil => rfl
  | cons one rest ih => exact congrArg Nat.succ ih

theorem length_heardAll (asked : List Asked) (replies : List Reply) (ts : UInt32) :
    (service.heardAll asked replies ts).length = min asked.length replies.length := by
  induction asked generalizing replies ts with
  | nil => simp [heardAll]
  | cons one rest ih =>
      cases replies with
      | nil => rfl
      | cons reply replies =>
          rw [heardAll, List.length_cons, ih, List.length_cons, List.length_cons]
          omega

-- What is heard at a place depends on the answer there, and on the last time before it.
theorem heardAll_at {asked : List Asked} {replies : List Reply} {ts : UInt32} {i : Nat}
    {one : Asked} {reply : Reply} (hone : asked[i]? = some one)
    (hreply : replies[i]? = some reply) :
    (service.heardAll asked replies ts)[i]? =
      some (service.heard one reply (lastStamp (replies.take i) ts)) := by
  induction asked generalizing replies ts i with
  | nil => cases hone
  | cons first rest ih =>
      cases replies with
      | nil => cases hreply
      | cons answered replies =>
          cases i with
          | zero =>
              obtain rfl := Option.some.inj hone
              obtain rfl := Option.some.inj hreply
              rfl
          | succ i => exact ih hone hreply

-- A run of calls has an outcome unless one is answered by a 204. Each call is then heard as its
-- handler has answered it, and the connection is left with nothing on it.
theorem session_refines (hdigest : ∀ key message, (service.site.hmac key message).length = 32)
    (hsetup : setup.Printable) (asked : List Asked)
    (hknown : setup.Known context service.site.jsonDepth w)
    (hasked : ∀ one ∈ asked, one.Sendable service.site.hmac context)
    (hsmall : ∀ reply ∈ (service.answers setup context asked w).1, reply.body.length < 2 ^ 31)
    (ts : UInt32) (responses : List Response) (link : Link) :
    service.run setup asked ⟨w, ts, [], []⟩ = some (responses, link) ↔
      (∀ reply ∈ (service.answers setup context asked w).1, reply.status ≠ 204) ∧
      link = ⟨(service.answers setup context asked w).2,
        lastStamp (service.answers setup context asked w).1 ts, [], []⟩ ∧
      responses.length = asked.length ∧
      ∀ i one reply, asked[i]? = some one →
        (service.answers setup context asked w).1[i]? = some reply →
          responses[i]? = some (service.heard one reply
            (lastStamp ((service.answers setup context asked w).1.take i) ts)) := by
  have hlength := @length_answers service setup context w asked
  have hheard : (service.heardAll asked (service.answers setup context asked w).1 ts).length =
      asked.length := by
    rw [length_heardAll, hlength, Nat.min_self]
  rw [run_answers hdigest hsetup asked hknown hasked hsmall ts, Option.ite_none_right_eq_some,
    Option.some.injEq, Prod.mk.injEq, and_congr_right_iff]
  intro _
  constructor
  · rintro ⟨rfl, rfl⟩
    exact ⟨rfl, hheard, fun i one reply => heardAll_at⟩
  · rintro ⟨rfl, hsame, hall⟩
    refine ⟨List.ext_getElem? fun i => ?_, rfl⟩
    cases hone : asked[i]? with
    | none =>
        have hle := List.getElem?_eq_none_iff.mp hone
        rw [List.getElem?_eq_none (by omega), List.getElem?_eq_none (by omega)]
    | some one =>
        obtain ⟨hi, -⟩ := List.getElem?_eq_some_iff.mp hone
        have hreply := List.getElem?_eq_getElem (hlength.symm ▸ hi)
        rw [hall i one _ hone hreply, heardAll_at hone hreply]

end Service

end Session

section Small

def shownStatus (status : Nat) : Nat :=
  if 100 ≤ status ∧ status < 1000 then status else 500

def statusDigits (status : Nat) : Bytes :=
  [UInt8.ofNat (48 + shownStatus status / 100), UInt8.ofNat (48 + shownStatus status / 10 % 10),
    UInt8.ofNat (48 + shownStatus status % 10)]

theorem shownStatus_range (status : Nat) :
    100 ≤ shownStatus status ∧ shownStatus status < 1000 := by
  unfold shownStatus
  split <;> omega

theorem statusDigits_digits (status : Nat) : ∀ b ∈ statusDigits status, isDigitByte b := by
  have hrange := shownStatus_range status
  have hdigit (n : Nat) (hn : n < 10) : isDigitByte (UInt8.ofNat (48 + n)) := by
    revert n
    decide
  intro b hb
  simp only [statusDigits, List.mem_cons, List.not_mem_nil, or_false] at hb
  rcases hb with rfl | rfl | rfl
  · exact hdigit _ (by omega)
  · exact hdigit _ (by omega)
  · exact hdigit _ (by omega)

theorem digitsValue_statusDigits (status : Nat) :
    digitsValue (statusDigits status) = shownStatus status := by
  have hrange := shownStatus_range status
  have hbyte (n : Nat) (hn : n < 10) : (UInt8.ofNat (48 + n)).toNat - 48 = n := by
    revert n
    decide
  simp only [digitsValue, statusDigits, List.foldl_cons, List.foldl_nil]
  rw [hbyte _ (by omega), hbyte _ (by omega), hbyte _ (by omega)]
  omega

theorem isContentLength_length : isContentLength (utf8 "content-length".toList) = true := by
  decide

theorem isContentLength_timestamp :
    isContentLength (utf8 "x-response-timestamp".toList) = false := by
  decide

theorem isResponseTimestamp_timestamp :
    isResponseTimestamp (utf8 "x-response-timestamp".toList) = true := by
  decide

theorem isResponseTimestamp_length :
    isResponseTimestamp (utf8 "content-length".toList) = false := by
  decide

-- A web server that sends the two headers and no others.
def plainHeaders (reply : Reply) : List (Bytes × Bytes) :=
  (if reply.status = 204 then []
    else [(utf8 "content-length".toList, utf8 (natText reply.body.length))]) ++
    (reply.timestamp.map fun t => (utf8 "x-response-timestamp".toList, utf8 (intText t))).toList

theorem mem_plainHeaders {reply : Reply} {header : Bytes × Bytes}
    (h : header ∈ plainHeaders reply) :
    (reply.status ≠ 204 ∧
      header = (utf8 "content-length".toList, utf8 (natText reply.body.length))) ∨
    ∃ t, reply.timestamp = some t ∧
      header = (utf8 "x-response-timestamp".toList, utf8 (intText t)) := by
  rcases List.mem_append.mp h with h | h
  · split at h
    · cases h
    · next hstatus => exact .inl ⟨hstatus, List.mem_singleton.mp h⟩
  · cases hts : reply.timestamp with
    | none =>
        rw [hts] at h
        cases h
    | some t =>
        rw [hts] at h
        exact .inr ⟨t, rfl, List.mem_singleton.mp h⟩

def plainWrite (reply : Reply) : HttpResponse where
  statusDigits := statusDigits reply.status
  reason := []
  headers := plainHeaders reply
  body := if reply.status = 204 then [] else reply.body
  threeDigits := rfl
  digits := statusDigits_digits reply.status
  reasonLine := by simp
  named := by
    intro header hheader
    rcases mem_plainHeaders hheader with ⟨-, rfl⟩ | ⟨t, -, rfl⟩
    · exact utf8_ne_nil (by simp)
    · exact utf8_ne_nil (by simp)
  names := by
    have hlength : (utf8 "content-length".toList).all isTokenByte = true := by decide
    have htime : (utf8 "x-response-timestamp".toList).all isTokenByte = true := by decide
    intro header hheader
    rcases mem_plainHeaders hheader with ⟨-, rfl⟩ | ⟨t, -, rfl⟩
    · exact List.all_eq_true.mp hlength
    · exact List.all_eq_true.mp htime
  values := by
    intro header hheader hline
    rcases mem_plainHeaders hheader with ⟨-, rfl⟩ | ⟨t, -, rfl⟩
    · exact absurd (digitByte_natText hline) (by decide)
    · have hint : 10 ∈ utf8 (intText t) := hline
      cases t with
      | ofNat n => exact absurd (digitByte_natText hint) (by decide)
      | negSucc n =>
          rcases List.mem_cons.mp hint with h | h
          · exact absurd h (by decide)
          · exact absurd (digitByte_natText h) (by decide)
  lengths := by
    intro header hheader hlength
    rcases mem_plainHeaders hheader with ⟨hstatus, rfl⟩ | ⟨t, -, rfl⟩
    · refine ⟨[], utf8 (natText reply.body.length), [], by simp, by simp, by simp,
        utf8_ne_nil (natText_ne_nil _), fun b => digitByte_natText, ?_⟩
      rw [digitsValue_natText, if_neg hstatus]
    · rw [isContentLength_timestamp] at hlength
      cases hlength
  framed := by
    by_cases hstatus : reply.status = 204
    · right
      rw [digitsValue_statusDigits, hstatus, if_pos rfl]
      exact ⟨rfl, rfl⟩
    · left
      refine ⟨(utf8 "content-length".toList, utf8 (natText reply.body.length)),
        List.mem_append_left _ ?_, isContentLength_length⟩
      rw [if_neg hstatus]
      exact List.mem_singleton_self _

theorem writes_plainWrite {reply : Reply} (h : reply.status = 204 → reply.body = []) :
    Writes reply (plainWrite reply) where
  status := digitsValue_statusDigits reply.status
  body := by
    change (if reply.status = 204 then [] else reply.body) = reply.body
    split
    · next hstatus => exact (h hstatus).symm
    · rfl
  length := by
    rw [List.any_eq_true]
    constructor
    · rintro ⟨header, hheader, hlength⟩
      rcases mem_plainHeaders hheader with ⟨hstatus, -⟩ | ⟨t, -, rfl⟩
      · exact hstatus
      · rw [isContentLength_timestamp] at hlength
        cases hlength
    · intro hstatus
      refine ⟨(utf8 "content-length".toList, utf8 (natText reply.body.length)),
        List.mem_append_left _ ?_, isContentLength_length⟩
      rw [if_neg hstatus]
      exact List.mem_singleton_self _
  time := by
    intro t ht header hheader htime
    rcases mem_plainHeaders hheader with ⟨-, rfl⟩ | ⟨t', ht', rfl⟩
    · rw [isResponseTimestamp_length] at htime
      cases htime
    · rw [ht] at ht'
      obtain rfl := Option.some.inj ht'
      exact ⟨[], [], by simp, by simp, by simp⟩
  stamped := by
    have hlengths : (if reply.status = 204 then [] else
        [(utf8 "content-length".toList, utf8 (natText reply.body.length))]).any
          (fun header => isResponseTimestamp header.1) = false := by
      split
      · rfl
      · rw [List.any_cons, isResponseTimestamp_length]
        rfl
    change (plainHeaders reply).any _ = _
    unfold plainHeaders
    rw [List.any_append, hlengths, Bool.false_or]
    cases reply.timestamp with
    | none => rfl
    | some t =>
        change (isResponseTimestamp (utf8 "x-response-timestamp".toList) || false) = true
        rw [isResponseTimestamp_timestamp]
        rfl

def Service.small : Service where
  server := .standard
  site := { Site.small with hmac := echo }
  fuel := 0
  errorPage _ := []
  write _ := plainWrite
  writes _ _ := writes_plainWrite

def Setup.small : Setup :=
  ⟨zeroClient, utf8 ['h'], utf8 ['c']⟩

def Context.device : Context where
  clientId := ['c']
  secretHex := zeroSecret.text
  acl := anyAcl
  hexValid := by decide

def World.known : World where
  store := World.trusting.store.set (clientSecretKey ['c']) (utf8 zeroSecret.text)
  clock := 100
  redisMs := 0

theorem printable_one {b : UInt8} (hfield : HttpMessage.isField b)
    (hblank : HttpMessage.isBlank b = false) : Printable [b] where
  field := List.forall_mem_singleton.mpr hfield
  first := by
    rintro b ⟨⟩
    exact hblank
  last := by
    rintro b ⟨⟩
    exact hblank

theorem printable_small : Setup.small.Printable where
  host := printable_one (by decide) (by decide)
  clientId := printable_one (by decide) (by decide)
  named := by decide

theorem known_small : Setup.small.Known Context.device Service.small.site.jsonDepth World.known
    where
  secret := ⟨zeroSecret, rfl, rfl⟩
  clientId := by decide
  stored := Store.get_set_self _ _ _
  acl := by
    have hget : World.known.store.get (clientAclKey ['c']) =
        World.trusting.store.get (clientAclKey ['c']) := Store.get_set_of_ne _ (by decide) _
    have hloaded := acl_trusting
    rwa [← hget] at hloaded

theorem sendable_small {op : Operation} {call : Call} (hfits : op.Fits) (hquery : op.query = []) :
    Asked.Sendable Service.small.site.hmac Context.device ⟨op, call, 100, 100, id⟩ where
  fits := hfits
  fresh := rfl
  told := fun h => absurd hquery h
  keeps := fun _ _ _ => rfl

-- A value of one byte into a buffer of two.
def writeThenRead : List Asked :=
  [⟨.writeKV (utf8 ['k']) [42], ⟨none, false, 0, by simp⟩, 100, 100, id⟩,
    ⟨.readKV (utf8 ['k']), ⟨some [0, 0], true, 2, by simp⟩, 100, 100, id⟩]

theorem sendable_writeThenRead :
    ∀ one ∈ writeThenRead, one.Sendable Service.small.site.hmac Context.device := by
  intro one hone
  simp only [writeThenRead, List.mem_cons, List.not_mem_nil, or_false] at hone
  rcases hone with rfl | rfl
  · exact sendable_small ⟨List.forall_mem_singleton.mpr (by decide), by decide⟩ rfl
  · exact sendable_small ⟨List.forall_mem_singleton.mpr (by decide), by decide⟩ rfl

theorem writeThenRead_heard :
    Service.small.run Setup.small writeThenRead ⟨World.known, 0, [], []⟩ =
      some ([⟨200, none, none, 100⟩, ⟨200, some [42, 0], some 1, 100⟩],
        ⟨(Service.small.answers Setup.small Context.device writeThenRead World.known).2,
          100, [], []⟩) := by
  have hanswers : (Service.small.answers Setup.small Context.device writeThenRead World.known).1 =
      [⟨200, [129, 166, 115, 116, 97, 116, 117, 115, 162, 111, 107], some 100⟩,
        ⟨200, [42], some 100⟩] := by
    decide
  refine (Service.session_refines length_echo printable_small writeThenRead known_small
    sendable_writeThenRead ?_ 0 _ _).mpr ⟨?_, ?_, rfl, ?_⟩
  · rw [hanswers]
    simp
  · rw [hanswers]
    simp
  · rw [hanswers]
    rfl
  · intro i one reply hone hreply
    rw [hanswers] at hreply ⊢
    rcases i with _ | _ | i
    · obtain rfl := Option.some.inj hone
      obtain rfl := Option.some.inj hreply
      rfl
    · obtain rfl := Option.some.inj hone
      obtain rfl := Option.some.inj hreply
      rfl
    · cases hone

end Small

end Stra2us.IoTClient
