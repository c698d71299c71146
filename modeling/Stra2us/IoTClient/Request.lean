import Stra2us.Device.Serve
import Stra2us.Foundation.HttpMessage
import Stra2us.IoTClient.Reading
import Stra2us.Server.Unambiguous

namespace Stra2us.IoTClient

open Foundation Server Kv

section Write

-- A `const char *` is read up to its first zero byte.
def cString (memory : Bytes) : Bytes :=
  memory.takeWhile (· ≠ 0)

-- `snprintf` into an array of this size, whose last byte ends the string.
def snprintf (size : Nat) (text : Bytes) : Bytes :=
  text.take (size - 1)

-- A client with what it was constructed with.
structure Setup where
  client : IoTClient
  host : Bytes
  clientId : Bytes

def calculateSignature (hmac : Hmac) (client : IoTClient) (uri payload : Bytes)
    (timestamp : UInt32) : Option Text := do
  let secret ← client.secretBytes
  some (hexdigest (hmac secret (uri ++ payload ++ utf8 (natText timestamp.toNat))))

-- What `sendSignedRequest` prints on the connection, print by print.
def requestBytes (hmac : Hmac) (setup : Setup) (method : String) (uri payload : Bytes)
    (contentType : String) (ts : UInt32) : Option Bytes := do
  let sigHex ← calculateSignature hmac setup.client uri payload ts
  let crlf := utf8 "\r\n".toList
  let tail :=
    if payload.length > 0 then
      utf8 "Content-Type: ".toList ++ utf8 contentType.toList ++ crlf ++
        utf8 "Content-Length: ".toList ++ utf8 (natText payload.length) ++
        utf8 "\r\n\r\n".toList ++ payload
    else utf8 "Content-Length: 0\r\n\r\n".toList
  some (utf8 method.toList ++ utf8 " ".toList ++ uri ++ utf8 " HTTP/1.1\r\n".toList ++
    utf8 "Host: ".toList ++ setup.host ++ crlf ++
    utf8 "Connection: keep-alive\r\n".toList ++
    utf8 "X-Client-ID: ".toList ++ setup.clientId ++ crlf ++
    utf8 "X-Timestamp: ".toList ++ utf8 (natText ts.toNat) ++ crlf ++
    utf8 "X-Signature: ".toList ++ utf8 sigHex ++ crlf ++ tail)

-- The calls of the SDK, with what they are given.
inductive Operation
  | writeKV (key payload : Bytes)
  | readKV (key : Bytes)
  | publishQueue (topic payload : Bytes)
  | publishQueueTtl (topic payload : Bytes) (ttl : UInt32)
  | publishText (topic message : Bytes)
  | consumeQueue (topic : Bytes) (envelope : Bool)

namespace Operation

def method : Operation → String
  | .writeKV _ _ => "POST"
  | .readKV _ => "GET"
  | .publishQueue _ _ => "POST"
  | .publishQueueTtl _ _ _ => "POST"
  | .publishText _ _ => "POST"
  | .consumeQueue _ _ => "GET"

def name : Operation → Bytes
  | .writeKV key _ => key
  | .readKV key => key
  | .publishQueue topic _ => topic
  | .publishQueueTtl topic _ _ => topic
  | .publishText topic _ => topic
  | .consumeQueue topic _ => topic

def stem : Operation → Bytes
  | .writeKV _ _ => utf8 "/kv/".toList
  | .readKV _ => utf8 "/kv/".toList
  | .publishQueue _ _ => utf8 "/q/".toList
  | .publishQueueTtl _ _ _ => utf8 "/q/".toList
  | .publishText _ _ => utf8 "/q/".toList
  | .consumeQueue _ _ => utf8 "/q/".toList

-- What follows the name in the format, with its arguments.
def query : Operation → Bytes
  | .publishQueueTtl _ _ ttl => utf8 "?ttl=".toList ++ utf8 (natText ttl.toNat)
  | .consumeQueue _ envelope => if envelope then utf8 "?envelope=true".toList else []
  | _ => []

-- The size of the array for the URI.
def uriSize : Operation → Nat
  | .writeKV _ _ => 64
  | .readKV _ => 64
  | .publishQueue _ _ => 64
  | .publishQueueTtl _ _ _ => 128
  | .publishText _ _ => 64
  | .consumeQueue _ _ => 96

def uri (op : Operation) : Bytes :=
  snprintf op.uriSize (op.stem ++ cString op.name ++ op.query)

def payload : Operation → Bytes
  | .writeKV _ payload => payload
  | .readKV _ => []
  | .publishQueue _ payload => payload
  | .publishQueueTtl _ payload _ => payload
  | .publishText _ message => cString message
  | .consumeQueue _ _ => []

def contentType : Operation → String
  | .publishText _ _ => "text/plain"
  | _ => "application/x-msgpack"

def bytes (hmac : Hmac) (setup : Setup) (ts : UInt32) (op : Operation) : Option Bytes :=
  requestBytes hmac setup op.method op.uri op.payload op.contentType ts

end Operation

end Write

section Received

-- The web server hands a message on with its header bytes as text.
def received (m : HttpMessage.Message) : HttpRequest where
  method := HttpMessage.latin1 m.method
  target := m.target
  headers := m.headers.map fun header => (HttpMessage.latin1 header.1, HttpMessage.latin1 header.2)
  body := m.body

-- A byte that stands for itself in the path of a URL.
def isPathByte (b : UInt8) : Bool :=
  HttpMessage.isVisible b && b ≠ 35 && b ≠ 37 && b ≠ 63

-- The name is one that a path takes as it is, and the array has room for the whole URI.
structure Operation.Fits (op : Operation) : Prop where
  name : ∀ b ∈ op.name, isPathByte b
  room : (op.stem ++ op.name ++ op.query).length < op.uriSize

-- What an HTTP server finds in the bytes of a call.
def message (setup : Setup) (op : Operation) (sigHex : Text) (ts : UInt32) :
    HttpMessage.Message where
  method := utf8 op.method.toList
  target := op.uri
  headers := [(utf8 "Host".toList, setup.host),
    (utf8 "Connection".toList, utf8 "keep-alive".toList),
    (utf8 "X-Client-ID".toList, setup.clientId),
    (utf8 "X-Timestamp".toList, utf8 (natText ts.toNat)),
    (utf8 "X-Signature".toList, utf8 sigHex)] ++
    (if op.payload.length > 0 then
      [(utf8 "Content-Type".toList, utf8 op.contentType.toList),
        (utf8 "Content-Length".toList, utf8 (natText op.payload.length))]
    else [(utf8 "Content-Length".toList, utf8 "0".toList)])
  body := op.payload

-- What can stand in a header: printable bytes, with none of them a blank at an end.
structure Printable (value : Bytes) : Prop where
  field : ∀ b ∈ value, HttpMessage.isField b
  first : ∀ b ∈ value.head?, HttpMessage.isBlank b = false
  last : ∀ b ∈ value.getLast?, HttpMessage.isBlank b = false

structure Setup.Printable (setup : Setup) : Prop where
  host : IoTClient.Printable setup.host
  clientId : IoTClient.Printable setup.clientId
  named : setup.clientId ≠ []

variable {hmac : Hmac} {setup : Setup} {op : Operation} {ts : UInt32}

def Operation.digest (hmac : Hmac) (secret : Bytes) (op : Operation) (ts : UInt32) : Bytes :=
  hmac secret (op.uri ++ op.payload ++ utf8 (natText ts.toNat))

theorem bytes_write {secret : Bytes} (hsecret : setup.client.secretBytes = some secret) :
    op.bytes hmac setup ts =
      some (message setup op (hexdigest (op.digest hmac secret ts)) ts).write := by
  have hcrlf : utf8 "\r\n".toList = [13, 10] := by decide
  have hend : utf8 "\r\n\r\n".toList = [13, 10, 13, 10] := by decide
  have hversion : utf8 " HTTP/1.1\r\n".toList =
      32 :: (HttpMessage.version ++ HttpMessage.crlf) := by decide
  have hkeep : utf8 "Connection: keep-alive\r\n".toList =
      utf8 "Connection".toList ++ utf8 ": ".toList ++ utf8 "keep-alive".toList ++
        HttpMessage.crlf := by decide
  have hnone : utf8 "Content-Length: 0\r\n\r\n".toList =
      utf8 "Content-Length".toList ++ utf8 ": ".toList ++ utf8 "0".toList ++
        HttpMessage.crlf ++ HttpMessage.crlf := by decide
  have hspace : utf8 " ".toList = [32] := by decide
  have hcolon (name : String) : utf8 (name ++ ": ").toList =
      utf8 name.toList ++ utf8 ": ".toList := by
    rw [String.toList_append, utf8_append]
  have hhost : utf8 "Host: ".toList = utf8 "Host".toList ++ utf8 ": ".toList := hcolon "Host"
  have hid : utf8 "X-Client-ID: ".toList = utf8 "X-Client-ID".toList ++ utf8 ": ".toList :=
    hcolon "X-Client-ID"
  have htime : utf8 "X-Timestamp: ".toList = utf8 "X-Timestamp".toList ++ utf8 ": ".toList :=
    hcolon "X-Timestamp"
  have hsig : utf8 "X-Signature: ".toList = utf8 "X-Signature".toList ++ utf8 ": ".toList :=
    hcolon "X-Signature"
  have htype : utf8 "Content-Type: ".toList = utf8 "Content-Type".toList ++ utf8 ": ".toList :=
    hcolon "Content-Type"
  have hlength : utf8 "Content-Length: ".toList =
      utf8 "Content-Length".toList ++ utf8 ": ".toList := hcolon "Content-Length"
  unfold Operation.bytes requestBytes calculateSignature
  rw [hsecret]
  simp only [Option.bind_eq_bind, Option.bind_some, hcrlf, hend, hversion, hkeep, hnone, hspace,
    hhost, hid, htime, hsig, htype, hlength]
  unfold HttpMessage.Message.write message Operation.digest
  by_cases hpayload : op.payload.length > 0
  · simp [hpayload, HttpMessage.headerLine, HttpMessage.crlf]
  · have hempty : op.payload = [] := List.length_eq_zero_iff.mp (by omega)
    simp [hempty, HttpMessage.headerLine, HttpMessage.crlf]

theorem latin1_utf8 {text : Text} (h : ∀ c ∈ text, c.toNat < 128) :
    HttpMessage.latin1 (utf8 text) = text := by
  rw [utf8_of_ascii h, HttpMessage.latin1, List.map_map]
  calc
    _ = text.map id := by
      apply List.map_congr_left
      intro c hc
      have hlt := h c hc
      have hbyte : (UInt8.ofNat c.toNat).toNat = c.toNat := by
        rw [UInt8.toNat_ofNat']
        omega
      simp only [Function.comp_apply, hbyte, Char.ofNat_toNat, id]
    _ = text := List.map_id _

theorem latin1_literal {text : Text} (h : (text.all fun c => c.toNat < 128) = true) :
    HttpMessage.latin1 (utf8 text) = text :=
  latin1_utf8 fun c hc => of_decide_eq_true (List.all_eq_true.mp h c hc)

theorem utf8_latin1 {bytes : Bytes} (h : ∀ b ∈ bytes, HttpMessage.isVisible b) :
    utf8 (HttpMessage.latin1 bytes) = bytes := by
  have hbyte : ∀ b ∈ bytes, (Char.ofNat b.toNat).toNat = b.toNat ∧ b.toNat < 128 := by
    intro b hb
    have hvisible := h b hb
    revert hvisible
    exact @Percent.byte_forall (fun b => HttpMessage.isVisible b →
      (Char.ofNat b.toNat).toNat = b.toNat ∧ b.toNat < 128) (by decide +kernel) b
  rw [utf8_of_ascii, HttpMessage.latin1, List.map_map]
  · calc
      _ = bytes.map id := by
        apply List.map_congr_left
        intro b hb
        simp only [Function.comp_apply, (hbyte b hb).1, UInt8.ofNat_toNat, id]
      _ = bytes := List.map_id _
  · intro c hc
    obtain ⟨b, hb, rfl⟩ := List.mem_map.mp hc
    rw [(hbyte b hb).1]
    exact (hbyte b hb).2

theorem cString_eq {bytes : Bytes} (h : ∀ b ∈ bytes, isPathByte b) : cString bytes = bytes := by
  rw [cString, List.takeWhile_eq_self_iff]
  intro b hb
  have hpath := h b hb
  have hne : b ≠ 0 := by
    rintro rfl
    exact absurd hpath (by decide)
  simpa using hne

theorem isVisible_of_isPathByte {b : UInt8} (h : isPathByte b) : HttpMessage.isVisible b := by
  unfold isPathByte at h
  simp only [Bool.and_eq_true] at h
  exact h.1.1.1

namespace Operation

theorem stem_path (op : Operation) : ∀ b ∈ op.stem, isPathByte b := by
  have hkv : (utf8 "/kv/".toList).all isPathByte = true := by decide
  have hq : (utf8 "/q/".toList).all isPathByte = true := by decide
  apply List.all_eq_true.mp
  cases op with
  | writeKV | readKV => exact hkv
  | publishQueue | publishQueueTtl | publishText | consumeQueue => exact hq

theorem method_eq (op : Operation) : op.method = "POST" ∨ op.method = "GET" := by
  cases op <;> simp [method]

theorem contentType_eq (op : Operation) :
    op.contentType = "text/plain" ∨ op.contentType = "application/x-msgpack" := by
  cases op <;> simp [contentType]

theorem query_visible (op : Operation) : ∀ b ∈ op.query, HttpMessage.isVisible b := by
  cases op with
  | publishQueueTtl topic payload ttl =>
      intro b hb
      rcases List.mem_append.mp hb with hb | hb
      · exact List.all_eq_true.mp (by decide : (utf8 "?ttl=".toList).all _ = true) b hb
      · rw [utf8_of_ascii fun c hc => natText_ascii hc] at hb
        obtain ⟨c, hc, rfl⟩ := List.mem_map.mp hb
        have hdigit := Char.isDigit_iff_toNat.mp (isDigit_of_mem_natText hc)
        simp only [HttpMessage.isVisible, Bool.and_eq_true, decide_eq_true_eq,
          UInt8.le_iff_toNat_le, UInt8.toNat_ofNat', UInt8.reduceToNat]
        simp at hdigit
        omega
  | consumeQueue topic envelope =>
      have hflag : (utf8 "?envelope=true".toList).all HttpMessage.isVisible = true := by
        decide
      cases envelope with
      | false => simp [query]
      | true => exact List.all_eq_true.mp hflag
  | writeKV | readKV | publishQueue | publishText => simp [query]

theorem Fits.uri_eq {op : Operation} (h : op.Fits) : op.uri = op.stem ++ op.name ++ op.query := by
  have hroom := h.room
  unfold uri snprintf
  rw [cString_eq h.name, List.take_of_length_le (by omega)]

theorem Fits.uri_visible {op : Operation} (h : op.Fits) :
    ∀ b ∈ op.uri, HttpMessage.isVisible b := by
  intro b hb
  rw [h.uri_eq, List.mem_append, List.mem_append] at hb
  rcases hb with (hb | hb) | hb
  · exact isVisible_of_isPathByte (op.stem_path b hb)
  · exact isVisible_of_isPathByte (h.name b hb)
  · exact op.query_visible b hb

theorem Fits.uri_ne {op : Operation} (h : op.Fits) : op.uri ≠ [] := by
  rw [h.uri_eq]
  cases op <;> simp [stem, utf8_cons]

end Operation

theorem printable_of_visible {value : Bytes} (h : ∀ b ∈ value, HttpMessage.isVisible b) :
    Printable value := by
  have hbyte : ∀ b ∈ value, HttpMessage.isField b ∧ HttpMessage.isBlank b = false := by
    intro b hb
    have hvisible := h b hb
    revert hvisible
    exact @Percent.byte_forall (fun b => HttpMessage.isVisible b →
      HttpMessage.isField b ∧ HttpMessage.isBlank b = false) (by decide +kernel) b
  refine ⟨fun b hb => (hbyte b hb).1, fun b hb => (hbyte b ?_).2, fun b hb => (hbyte b ?_).2⟩
  · exact List.mem_of_mem_head? hb
  · exact List.mem_of_mem_getLast? hb

theorem natText_printable (n : Nat) : Printable (utf8 (natText n)) := by
  apply printable_of_visible
  intro b hb
  rw [utf8_of_ascii fun c hc => natText_ascii hc] at hb
  obtain ⟨c, hc, rfl⟩ := List.mem_map.mp hb
  have hdigit := Char.isDigit_iff_toNat.mp (isDigit_of_mem_natText hc)
  simp only [HttpMessage.isVisible, Bool.and_eq_true, decide_eq_true_eq, UInt8.le_iff_toNat_le,
    UInt8.toNat_ofNat', UInt8.reduceToNat]
  simp at hdigit
  omega

theorem hexdigest_printable (bytes : Bytes) : Printable (utf8 (hexdigest bytes)) := by
  have hdigit (n : Nat) (hn : n < 16) :
      HttpMessage.isVisible (UInt8.ofNat (hexDigit n).toNat) := by
    revert n
    decide
  apply printable_of_visible
  intro b hb
  rw [utf8_of_ascii fun c hc => by simpa using List.all_eq_true.mp (hexdigest_ascii bytes) c hc]
    at hb
  obtain ⟨c, hc, rfl⟩ := List.mem_map.mp hb
  obtain ⟨byte, -, hmem⟩ := List.mem_flatMap.mp hc
  have hb := byte.toNat_lt
  simp only [List.mem_cons, List.not_mem_nil, or_false] at hmem
  rcases hmem with rfl | rfl
  · exact hdigit _ (by omega)
  · exact hdigit _ (by omega)

theorem writableHeader {name : String} {value : Bytes} (hne : name.toList ≠ [])
    (hname : (utf8 name.toList).all HttpMessage.isToken = true) (hvalue : Printable value) :
    HttpMessage.WritableHeader (utf8 name.toList, value) where
  named := utf8_ne_nil hne
  name := List.all_eq_true.mp hname
  value := hvalue.field
  first := hvalue.first
  last := hvalue.last

theorem lowered_headers (sigHex : Text) : (message setup op sigHex ts).lowered.headers =
    [(utf8 "host".toList, setup.host), (utf8 "connection".toList, utf8 "keep-alive".toList),
      (utf8 "x-client-id".toList, setup.clientId),
      (utf8 "x-timestamp".toList, utf8 (natText ts.toNat)),
      (utf8 "x-signature".toList, utf8 sigHex)] ++
    (if op.payload.length > 0 then
      [(utf8 "content-type".toList, utf8 op.contentType.toList),
        (utf8 "content-length".toList, utf8 (natText op.payload.length))]
    else [(utf8 "content-length".toList, utf8 "0".toList)]) := by
  have hlower : (utf8 "Host".toList).map HttpMessage.lower = utf8 "host".toList ∧
      (utf8 "Connection".toList).map HttpMessage.lower = utf8 "connection".toList ∧
      (utf8 "X-Client-ID".toList).map HttpMessage.lower = utf8 "x-client-id".toList ∧
      (utf8 "X-Timestamp".toList).map HttpMessage.lower = utf8 "x-timestamp".toList ∧
      (utf8 "X-Signature".toList).map HttpMessage.lower = utf8 "x-signature".toList ∧
      (utf8 "Content-Type".toList).map HttpMessage.lower = utf8 "content-type".toList ∧
      (utf8 "Content-Length".toList).map HttpMessage.lower = utf8 "content-length".toList := by
    decide
  obtain ⟨hhost, hconnection, hid, htime, hsig, htype, hlength⟩ := hlower
  unfold HttpMessage.Message.lowered message
  split
  · simp only [List.map_append, List.map_cons, List.map_nil, hhost, hconnection, hid, htime, hsig,
      htype, hlength]
  · simp only [List.map_append, List.map_cons, List.map_nil, hhost, hconnection, hid, htime, hsig,
      hlength]

theorem bodyLength_message (sigHex : Text) :
    HttpMessage.bodyLength (message setup op sigHex ts).lowered.headers =
      some op.payload.length := by
  have hothers : ∀ name ∈ ["host", "connection", "x-client-id", "x-timestamp", "x-signature",
      "content-type"], utf8 name.toList ≠ HttpMessage.transferEncoding ∧
        utf8 name.toList ≠ HttpMessage.contentLength := by
    decide
  simp only [List.forall_mem_cons, List.not_mem_nil, false_implies, implies_true, and_true]
    at hothers
  obtain ⟨hhost, hconnection, hid, htime, hsig, htype⟩ := hothers
  have hlength : utf8 "content-length".toList = HttpMessage.contentLength := rfl
  have hapart : HttpMessage.contentLength ≠ HttpMessage.transferEncoding := by decide
  rw [lowered_headers]
  unfold HttpMessage.bodyLength
  by_cases hpayload : op.payload.length > 0
  · simp only [if_pos hpayload, List.cons_append, List.nil_append, List.any_cons, List.any_nil,
      List.filter_cons, List.filter_nil, hhost, hconnection, hid, htime, hsig, htype, hlength,
      hapart,
      decide_false, decide_true, Bool.or_false, if_false, if_true, List.map_cons, List.map_nil,
      Bool.false_eq_true]
    rw [latin1_utf8 fun c hc => natText_ascii hc, decimalNat_natText]
  · have hempty : op.payload = [] := List.length_eq_zero_iff.mp (by omega)
    simp only [if_neg hpayload, List.cons_append, List.nil_append, List.any_cons, List.any_nil,
      List.filter_cons, List.filter_nil, hhost, hconnection, hid, htime, hsig, hlength, hapart,
      decide_false, decide_true, Bool.or_false, if_false, if_true, List.map_cons, List.map_nil,
      Bool.false_eq_true]
    rw [hempty]
    decide

theorem message_writable (hsetup : setup.Printable) (hop : op.Fits) (digest : Bytes) :
    (message setup op (hexdigest digest) ts).Writable where
  method_ne := by
    change utf8 op.method.toList ≠ []
    rcases op.method_eq with hmethod | hmethod
    · rw [hmethod]
      decide
    · rw [hmethod]
      decide
  method := by
    have hpost : (utf8 "POST".toList).all HttpMessage.isToken = true := by decide
    have hget : (utf8 "GET".toList).all HttpMessage.isToken = true := by decide
    apply List.all_eq_true.mp
    rcases op.method_eq with hmethod | hmethod
    · rw [message, hmethod]
      exact hpost
    · rw [message, hmethod]
      exact hget
  target_ne := hop.uri_ne
  target := hop.uri_visible
  headers := by
    have htype : Printable (utf8 op.contentType.toList) := by
      have htext : (utf8 "text/plain".toList).all HttpMessage.isVisible = true := by
        decide
      have hpacked : (utf8 "application/x-msgpack".toList).all HttpMessage.isVisible = true := by
        decide
      apply printable_of_visible
      apply List.all_eq_true.mp
      rcases op.contentType_eq with hkind | hkind
      · exact hkind ▸ htext
      · exact hkind ▸ hpacked
    have hkeep : Printable (utf8 "keep-alive".toList) :=
      printable_of_visible (List.all_eq_true.mp (by decide))
    have hzero : Printable (utf8 "0".toList) :=
      printable_of_visible (List.all_eq_true.mp (by decide))
    intro header hheader
    unfold message at hheader
    simp only [List.cons_append, List.nil_append, List.mem_cons] at hheader
    rcases hheader with rfl | rfl | rfl | rfl | rfl | hheader
    · exact writableHeader (by decide) (by decide) hsetup.host
    · exact writableHeader (by decide) (by decide) hkeep
    · exact writableHeader (by decide) (by decide) hsetup.clientId
    · exact writableHeader (by decide) (by decide) (natText_printable _)
    · exact writableHeader (by decide) (by decide) (hexdigest_printable _)
    · split at hheader
      · simp only [List.mem_cons, List.not_mem_nil, or_false] at hheader
        rcases hheader with rfl | rfl
        · exact writableHeader (by decide) (by decide) htype
        · exact writableHeader (by decide) (by decide) (natText_printable _)
      · obtain rfl := List.mem_singleton.mp hheader
        exact writableHeader (by decide) (by decide) hzero
  whole := bodyLength_message _

-- The bytes of a call are read as one request, and what stands behind them is left.
theorem read_bytes {secret : Bytes} (hsecret : setup.client.secretBytes = some secret)
    (hsetup : setup.Printable) (hop : op.Fits) :
    ∃ bytes, op.bytes hmac setup ts = some bytes ∧ ∀ rest,
      HttpMessage.read (bytes ++ rest) =
        some ((message setup op (hexdigest (op.digest hmac secret ts)) ts).lowered, rest) :=
  ⟨_, bytes_write hsecret, fun rest => HttpMessage.read_write (message_writable hsetup hop _) rest⟩

end Received

section Served

-- The client is known to the server under the secret that it was constructed with.
structure Setup.Known (setup : Setup) (context : Context) (jsonDepth : Nat) (w : World) :
    Prop where
  secret : ∃ secret : Secret, setup.client.secretHex = secret.text ∧
    context.secretHex = secret.text
  clientId : context.clientId = HttpMessage.latin1 setup.clientId
  stored : w.store.get (clientSecretKey context.clientId) = some (utf8 context.secretHex)
  acl : aclOfRecord jsonDepth (w.store.get (clientAclKey context.clientId)) = .ok context.acl

-- The path that the server sees, which is the URI without its query.
def Operation.path (op : Operation) : Text :=
  HttpMessage.latin1 (op.stem ++ op.name)

def Operation.request (op : Operation) (setup : Setup) (sigHex : Text) (ts : UInt32) : Request where
  method := op.method.toList
  path := op.path
  headers := (received (message setup op sigHex ts).lowered).headers
  body := op.payload

-- Where a call is meant to go, and the call of the handler there.
def Operation.target : Operation → Route
  | .writeKV key _ => .writeKv (HttpMessage.latin1 key)
  | .readKV key => .readKv (HttpMessage.latin1 key)
  | .publishQueue topic _ => .publish (HttpMessage.latin1 topic)
  | .publishQueueTtl topic _ _ => .publish (HttpMessage.latin1 topic)
  | .publishText topic _ => .publish (HttpMessage.latin1 topic)
  | .consumeQueue topic _ => .consume (HttpMessage.latin1 topic)

def Operation.call (fuel : Nat) (context : Context) (request : Request) :
    Operation → Server.Call
  | .writeKV key _ => .writeKv context (HttpMessage.latin1 key) request
  | .readKV key => .readKv context (HttpMessage.latin1 key) request
  | .publishQueue topic _ => .publish context (HttpMessage.latin1 topic) request 3600
  | .publishQueueTtl topic _ _ => .publish context (HttpMessage.latin1 topic) request 3600
  | .publishText topic _ => .publish context (HttpMessage.latin1 topic) request 3600
  | .consumeQueue topic _ => .consume context (HttpMessage.latin1 topic) request false fuel

-- What the server takes for the signature of a call.
def Operation.signature (hmac : Hmac) (context : Context) (op : Operation) (ts : UInt32) : Text :=
  hexdigest (op.digest hmac ((fromHex context.secretHex).getD []) ts)

-- The client signs the query as well, which the path that the server looks at is without.
def Operation.handler (site : Site) (fuel : Nat) (context : Context) (request : Request)
    (op : Operation) : Handler Answer :=
  if op.query = [] then (op.call fuel context request).handler site
  else throw (.http 401 "Invalid Signature".toList)

variable {hmac : Hmac} {setup : Setup} {op : Operation} {ts : UInt32} {server : HttpServer}
  {w : World}

theorem unquote_plain (replaced : Bytes → Text) {text : Text} (h : '%' ∉ text) :
    Percent.unquote replaced text = text := by
  have hbytes : Percent.unquoteBytes text = utf8 text := by
    induction text with
    | nil => rfl
    | cons c rest ih =>
        rw [List.mem_cons, not_or] at h
        rw [Percent.unquoteBytes_cons (Ne.symm h.1), ih h.2, utf8_cons]
  rw [Percent.unquote, hbytes, utf8Decode_utf8, Option.getD_some]

theorem mem_latin1 {bytes : Bytes} {c : Char} (h : c ∈ HttpMessage.latin1 bytes)
    (hbytes : ∀ b ∈ bytes, isPathByte b) :
    (33 ≤ c.toNat ∧ c.toNat ≤ 126) ∧ c ≠ '#' ∧ c ≠ '%' ∧ c ≠ '?' := by
  obtain ⟨b, hb, rfl⟩ := List.mem_map.mp h
  have hpath := hbytes b hb
  revert hpath
  exact @Percent.byte_forall (fun b => isPathByte b →
    (33 ≤ (Char.ofNat b.toNat).toNat ∧ (Char.ofNat b.toNat).toNat ≤ 126) ∧
      Char.ofNat b.toNat ≠ '#' ∧ Char.ofNat b.toNat ≠ '%' ∧ Char.ofNat b.toNat ≠ '?')
    (by decide +kernel) b

theorem Operation.path_bytes (hop : op.Fits) : ∀ b ∈ op.stem ++ op.name, isPathByte b := by
  intro b hb
  rcases List.mem_append.mp hb with hb | hb
  · exact op.stem_path b hb
  · exact hop.name b hb

-- A query begins with its mark.
theorem Operation.query_head (op : Operation) : op.query = [] ∨ ∃ rest, op.query = 63 :: rest := by
  cases op with
  | publishQueueTtl topic payload ttl => exact .inr ⟨_, rfl⟩
  | consumeQueue topic envelope =>
      cases envelope with
      | false => exact .inl rfl
      | true => exact .inr ⟨_, rfl⟩
  | writeKV | readKV | publishQueue | publishText => exact .inl rfl

theorem scope_received (hop : op.Fits) (sigHex : Text) :
    ∃ query, server.scope (received (message setup op sigHex ts).lowered) = some ⟨op.path, query⟩ ∧
      (op.query = [] → query = []) ∧
      server.request (received (message setup op sigHex ts).lowered) ⟨op.path, query⟩ =
        op.request setup sigHex ts := by
  let r := received (message setup op sigHex ts).lowered
  have hvisible := hop.uri_visible
  have htarget : r.target = utf8 (HttpMessage.latin1 op.uri) := (utf8_latin1 hvisible).symm
  have hrange : ∀ c ∈ HttpMessage.latin1 op.uri, 0x21 ≤ c.toNat ∧ c.toNat ≤ 0x7e := by
    intro c hc
    obtain ⟨b, hb, rfl⟩ := List.mem_map.mp hc
    have hb := hvisible b hb
    revert hb
    exact @Percent.byte_forall (fun b => HttpMessage.isVisible b →
      0x21 ≤ (Char.ofNat b.toNat).toNat ∧ (Char.ofNat b.toNat).toNat ≤ 0x7e)
      (by decide +kernel) b
  have hscope := scope_of_visible server htarget hrange
  have hplain (c : Char) (hc : c ∈ op.path) := mem_latin1 hc (op.path_bytes hop)
  have hsplit : HttpMessage.latin1 op.uri = op.path ++ HttpMessage.latin1 op.query := by
    rw [hop.uri_eq, HttpMessage.latin1, List.map_append]
    rfl
  have hall : ∀ c ∈ op.path, decide (c ≠ '?') = true := by
    intro c hc
    simpa using (hplain c hc).2.2.2
  have hhead : ∀ c ∈ (HttpMessage.latin1 op.query).head?, decide (c ≠ '?') = false := by
    intro c hc
    rcases op.query_head with hnone | ⟨rest, hsome⟩
    · rw [hnone] at hc
      cases hc
    · rw [hsome] at hc
      obtain rfl := Option.some.inj hc
      rfl
  have htake : (HttpMessage.latin1 op.uri).takeWhile (· ≠ '?') = op.path := by
    rw [hsplit]
    exact takeWhile_append_of_stop hall hhead
  have hdrop : (HttpMessage.latin1 op.uri).dropWhile (· ≠ '?') = HttpMessage.latin1 op.query := by
    rw [hsplit]
    exact dropWhile_append_of_stop hall hhead
  rw [htake, hdrop, unquote_plain _ fun hc => (hplain _ hc).2.2.1 rfl] at hscope
  refine ⟨_, hscope, ?_, ?_⟩
  · intro hnone
    rw [hnone]
    rfl
  · have hurl := server.urlPath_plain op.path (fun hc => (hplain _ hc).2.2.2 rfl)
      fun hc => (hplain _ hc).2.1 rfl
    have hmethod : HttpMessage.latin1 (utf8 op.method.toList) = op.method.toList := by
      apply latin1_literal
      rcases op.method_eq with h | h
      · rw [h]
        decide
      · rw [h]
        decide
    unfold HttpServer.request Operation.request
    rw [hurl]
    exact congrArg (fun method => Request.mk method op.path _ _) hmethod

theorem request_headers {sigHex : Text} (hsig : ∀ c ∈ sigHex, c.toNat < 128) :
    (op.request setup sigHex ts).headers =
      [("host".toList, HttpMessage.latin1 setup.host),
        ("connection".toList, "keep-alive".toList),
        ("x-client-id".toList, HttpMessage.latin1 setup.clientId),
        ("x-timestamp".toList, natText ts.toNat), ("x-signature".toList, sigHex)] ++
      (if op.payload.length > 0 then
        [("content-type".toList, op.contentType.toList),
          ("content-length".toList, natText op.payload.length)]
      else [("content-length".toList, "0".toList)]) := by
  have hnames : ∀ name ∈ ["host", "connection", "x-client-id", "x-timestamp", "x-signature",
      "content-type", "content-length", "keep-alive", "0", "text/plain",
      "application/x-msgpack"], HttpMessage.latin1 (utf8 name.toList) = name.toList := by
    decide
  simp only [List.forall_mem_cons, List.not_mem_nil, false_implies, implies_true, and_true]
    at hnames
  obtain ⟨hhost, hconnection, hid, htime, hsign, htype, hlength, hkeep, hzero, htext, hpacked⟩ :=
    hnames
  have hkind : HttpMessage.latin1 (utf8 op.contentType.toList) = op.contentType.toList := by
    rcases op.contentType_eq with h | h
    · rw [h, htext]
    · rw [h, hpacked]
  have hnumber (n : Nat) : HttpMessage.latin1 (utf8 (natText n)) = natText n :=
    latin1_utf8 fun c hc => natText_ascii hc
  have hfields : (op.request setup sigHex ts).headers =
      (message setup op sigHex ts).lowered.headers.map fun header =>
        (HttpMessage.latin1 header.1, HttpMessage.latin1 header.2) := rfl
  rw [hfields, lowered_headers]
  split
  · simp only [List.cons_append, List.nil_append, List.map_cons, List.map_nil, hhost, hconnection,
      hid, htime, hsign, htype, hlength, hkeep, hkind, hnumber, latin1_utf8 hsig]
  · simp only [List.cons_append, List.nil_append, List.map_cons, List.map_nil, hhost, hconnection,
      hid, htime, hsign, hlength, hkeep, hzero, hnumber, latin1_utf8 hsig]

theorem digest_ascii (digest : Bytes) : ∀ c ∈ hexdigest digest, c.toNat < 128 := by
  intro c hc
  simpa using List.all_eq_true.mp (hexdigest_ascii digest) c hc

-- The three headers of a call are there for the server.
theorem request_claims {jsonDepth : Nat} {context : Context} {digest : Bytes}
    (hsetup : setup.Printable) (hknown : setup.Known context jsonDepth w) (hdigest : digest ≠ []) :
    Device.Claims (op.request setup (hexdigest digest) ts) context.clientId ts.toNat
      (hexdigest digest) := by
  have hheaders := @request_headers setup op ts _ (digest_ascii digest)
  have hsig : hexdigest digest ≠ [] := fun hnil => hdigest (hexdigest_injective hnil)
  have hid : HttpMessage.latin1 setup.clientId ≠ [] := fun hnil =>
    hsetup.named (List.map_eq_nil_iff.mp hnil)
  have hparse : parseTimestamp (natText ts.toNat) = .ok ts.toNat := by
    have hlt := ts.toNat_lt
    have hdigits : (natText (ts.toNat : Int).natAbs).length ≤ maxIntDigits := by
      have hten : (natText ts.toNat).length ≤ 10 :=
        (Nat.length_toDigits_le_iff (by omega) (by decide)).mpr (by omega)
      exact hten.trans (by decide)
    have hread := parseInt_intText (ts.toNat : Int) hdigits
    simp [parseTimestamp, show natText ts.toNat = intText (ts.toNat : Int) from rfl, hread]
  refine ⟨requiredHeader_of_ne ?_ (hknown.clientId ▸ hid),
    ⟨natText ts.toNat, requiredHeader_of_ne ?_ (natText_ne_nil _), hparse⟩,
    requiredHeader_of_ne ?_ hsig⟩
  · rw [Request.header?, hheaders, hknown.clientId]
    rfl
  · rw [Request.header?, hheaders]
    rfl
  · rw [Request.header?, hheaders]
    rfl

-- What the client signs is what the server looks for, but for the query.
theorem signed_bytes (hop : op.Fits) : op.uri ++ op.payload ++ utf8 (natText ts.toNat) =
    utf8 op.path ++ op.query ++ op.payload ++ utf8 (intText ts.toNat) := by
  have hpath : utf8 op.path = op.stem ++ op.name :=
    utf8_latin1 fun b hb => isVisible_of_isPathByte (op.path_bytes hop b hb)
  rw [hop.uri_eq, hpath]
  rfl

variable {jsonDepth : Nat} {context : Context} {secret : Bytes}

theorem Setup.Known.secret_ne (h : setup.Known context jsonDepth w) : context.secretHex ≠ [] := by
  obtain ⟨pair, -, htext⟩ := h.secret
  intro hnil
  have hdigits := pair.digits
  rw [← htext, hnil] at hdigits
  cases hdigits

theorem verifySignature_digest (path : Text) (body digest : Bytes) (timestamp : Int)
    (hsecret : fromHex context.secretHex = some secret) :
    verifySignature hmac context.secretHex path body timestamp (hexdigest digest) =
      .ok (decide (hmac secret (signingPayload path body timestamp) = digest)) := by
  have hcompare : verifySignature hmac context.secretHex path body timestamp (hexdigest digest) =
      .ok (decide (hexdigest (hmac secret (signingPayload path body timestamp)) =
        hexdigest digest)) := by
    simp only [verifySignature, signPayload, Server.calculateSignature, hsecret, bind, Except.bind,
      compareDigest, hexdigest_ascii, ite_true]
  rw [hcompare]
  congr 1
  exact decide_eq_decide.mpr ⟨fun h => hexdigest_injective h, fun h => by rw [h]⟩

theorem verify_plain (hdigest : ∀ key message, (hmac key message).length = 32)
    (hsetup : setup.Printable) (hop : op.Fits) (hknown : setup.Known context jsonDepth w)
    (hfresh : verifyTimestamp w.clock ts.toNat = true)
    (hsecret : fromHex context.secretHex = some secret) (hquery : op.query = []) :
    (verifyDeviceRequest hmac jsonDepth
        (op.request setup (hexdigest (op.digest hmac secret ts)) ts)).runOn w =
      (.ok context, w) := by
  have hclaims := @request_claims setup op ts w jsonDepth context (op.digest hmac secret ts) hsetup
    hknown (List.ne_nil_of_length_pos (by rw [Operation.digest, hdigest]; decide))
  have hvalid : verifySignature hmac context.secretHex op.path op.payload ts.toNat
      (hexdigest (op.digest hmac secret ts)) = .ok true := by
    rw [verifySignature_digest op.path op.payload _ ts.toNat hsecret, Except.ok.injEq,
      decide_eq_true_eq, Operation.digest, signed_bytes hop, hquery, List.append_nil]
    rfl
  have htruthy : truthy (w.store.get (clientSecretKey context.clientId)) = true := by
    obtain ⟨byte, rest, hbytes⟩ := List.exists_cons_of_ne_nil (utf8_ne_nil hknown.secret_ne)
    rw [hknown.stored, hbytes]
    rfl
  exact Device.runOn_of_verified
    ⟨⟨_, _, hclaims, hfresh, hvalid⟩, htruthy, hknown.stored, hknown.acl⟩

-- The digest of what the server puts together is not that of what a query makes longer.
def Operation.Told (hmac : Hmac) (context : Context) (op : Operation) (ts : UInt32) : Prop :=
  op.query ≠ [] → ∀ secret, fromHex context.secretHex = some secret →
    hmac secret (signingPayload op.path op.payload ts.toNat) ≠ op.digest hmac secret ts

theorem verify_query (hdigest : ∀ key message, (hmac key message).length = 32)
    (hsetup : setup.Printable) (hknown : setup.Known context jsonDepth w)
    (hfresh : verifyTimestamp w.clock ts.toNat = true) (htold : op.Told hmac context ts)
    (hsecret : fromHex context.secretHex = some secret) (hquery : op.query ≠ []) :
    (verifyDeviceRequest hmac jsonDepth
        (op.request setup (hexdigest (op.digest hmac secret ts)) ts)).runOn w =
      (.error (.http 401 "Invalid Signature".toList), w) := by
  have hclaims := @request_claims setup op ts w jsonDepth context (op.digest hmac secret ts) hsetup
    hknown (List.ne_nil_of_length_pos (by rw [Operation.digest, hdigest]; decide))
  have hinvalid : verifySignature hmac context.secretHex op.path op.payload ts.toNat
      (hexdigest (op.digest hmac secret ts)) = .ok false := by
    rw [verifySignature_digest op.path op.payload _ ts.toNat hsecret, Except.ok.injEq,
      decide_eq_false_iff_not]
    exact htold hquery secret hsecret
  obtain ⟨text, htext, hparse⟩ := hclaims.timestamp
  have hstored : secretOfRecord (w.store.get (clientSecretKey context.clientId)) =
      .ok context.secretHex := by
    rw [hknown.stored, secretOfRecord_utf8 hknown.secret_ne]
  have hcontext : verifiedContext hmac
      (op.request setup (hexdigest (op.digest hmac secret ts)) ts) context.clientId
        context.secretHex ts.toNat (hexdigest (op.digest hmac secret ts)) =
      .error (.http 401 "Invalid Signature".toList) := by
    unfold verifiedContext
    split
    · rename_i hnone
      rw [hsecret] at hnone
      cases hnone
    · change (verifySignature hmac context.secretHex op.path op.payload ts.toNat
        (hexdigest (op.digest hmac secret ts)) >>= _) = _
      rw [hinvalid]
      rfl
  rw [verifyDeviceRequest_runOn hclaims.client htext hclaims.signature hparse hfresh hstored
    hknown.acl, hcontext]
  rfl

variable {site : Site} {fuel : Nat}

theorem route_path (hop : op.Fits) : Server.route op.method.toList op.path = some op.target := by
  have hline : '\n' ∉ HttpMessage.latin1 op.name := fun hmem =>
    absurd (mem_latin1 hmem hop.name).1.1 (by decide)
  have hparam (stem : Text) (hstem : (stem.all fun c => c.toNat < 128) = true) (name : Bytes)
      (h : '\n' ∉ HttpMessage.latin1 name) :
      HttpMessage.latin1 (utf8 stem ++ name) = stem ++ HttpMessage.latin1 name ∧
        pathParam stem (stem ++ HttpMessage.latin1 name) = some (HttpMessage.latin1 name) := by
    constructor
    · rw [HttpMessage.latin1, List.map_append]
      exact congrArg (· ++ _) (latin1_literal hstem)
    · rw [pathParam, if_pos (List.prefix_append _ _), List.drop_left, if_pos h]
  have hkv := hparam "/kv/".toList (by decide)
  have hq := hparam "/q/".toList (by decide)
  have hget : ¬ "GET".toList = "POST".toList := by decide
  have hapart (name : Text) : pathParam "/q/".toList ("/kv/".toList ++ name) = none := by
    rw [pathParam, if_neg]
    rintro ⟨rest, hrest⟩
    exact absurd (List.cons.inj (List.cons.inj hrest).2).1 (by decide)
  unfold Operation.path Server.route
  cases op with
  | writeKV key payload =>
      obtain ⟨hpath, hfound⟩ := hkv key hline
      rw [Operation.stem, Operation.name, hpath, hapart, hfound]
      exact if_pos rfl
  | readKV key =>
      obtain ⟨hpath, hfound⟩ := hkv key hline
      rw [Operation.stem, Operation.name, hpath, hapart, hfound]
      exact (if_neg hget).trans (if_pos rfl)
  | publishQueue topic payload | publishQueueTtl topic payload ttl | publishText topic message =>
      obtain ⟨hpath, hfound⟩ := hq topic hline
      rw [Operation.stem, Operation.name, hpath, hfound]
      exact if_pos rfl
  | consumeQueue topic envelope =>
      obtain ⟨hpath, hfound⟩ := hq topic hline
      rw [Operation.stem, Operation.name, hpath, hfound]
      exact (if_neg hget).trans (if_pos rfl)

theorem target_call (op : Operation) (request : Request) :
    op.target.call server fuel [] request context = .ok (op.call fuel context request) := by
  cases op with
  | writeKV | readKV => rfl
  | publishQueue | publishQueueTtl | publishText =>
      simp only [Operation.target, Route.call, server.intParam_absent, bind, Except.bind,
        Option.getD_none, Operation.call]
  | consumeQueue =>
      simp only [Operation.target, Route.call, server.boolParam_absent, bind, Except.bind,
        Option.getD_none, Operation.call]

-- Put together: the bytes of a call whose name fits come to the handler that was meant, as the
-- client's; those of a call with a query do not pass.
theorem serve_call (hdigest : ∀ key message, (site.hmac key message).length = 32)
    (hsetup : setup.Printable) (hop : op.Fits) (hknown : setup.Known context site.jsonDepth w)
    (hfresh : verifyTimestamp w.clock ts.toNat = true) (htold : op.Told site.hmac context ts) :
    ∃ bytes, op.bytes site.hmac setup ts = some bytes ∧
      ∀ rest, ∃ m, HttpMessage.read (bytes ++ rest) = some (m, rest) ∧
        (Device.serve server site fuel (received m)).runOn w =
          (op.handler site fuel context
            (op.request setup (op.signature site.hmac context ts) ts)).runOn w := by
  obtain ⟨secret, hclient, hcontext⟩ := hknown.secret
  have hbytes : setup.client.secretBytes = some secret.bytes := by
    have hread := @Implementation.secretBytes_text secret setup.client.lastResponseTs
    rwa [← hclient] at hread
  have hsecret : fromHex context.secretHex = some secret.bytes := by rw [hcontext, secret.reads]
  obtain ⟨bytes, hwritten, hread⟩ :=
    @read_bytes site.hmac setup op ts secret.bytes hbytes hsetup hop
  have hsig : op.signature site.hmac context ts =
      hexdigest (op.digest site.hmac secret.bytes ts) := by
    rw [Operation.signature, hsecret]
    rfl
  refine ⟨bytes, hwritten, fun rest => ⟨_, hread rest, ?_⟩⟩
  rw [hsig]
  obtain ⟨query, hscope, hnone, hrequest⟩ := @scope_received setup op ts server hop
    (hexdigest (op.digest site.hmac secret.bytes ts))
  have hmethod : (received (message setup op (hexdigest (op.digest site.hmac secret.bytes ts))
      ts).lowered).method = op.method.toList := by
    have hsame := congrArg Request.method hrequest
    exact hsame
  unfold Device.serve Operation.handler
  rw [hscope]
  dsimp only
  rw [hmethod, route_path hop]
  dsimp only
  rw [hrequest]
  by_cases hquery : op.query = []
  · rw [if_pos hquery, hnone hquery, Handler.runOn_bind_of_ok
      (verify_plain hdigest hsetup hop hknown hfresh hsecret hquery), target_call]
    rfl
  · rw [if_neg hquery, Handler.runOn_bind_of_error
      (verify_query hdigest hsetup hknown hfresh htold hsecret hquery)]
    rfl

end Served

end Stra2us.IoTClient
