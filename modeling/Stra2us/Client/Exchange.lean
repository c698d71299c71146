import Stra2us.Acl.Confine
import Stra2us.Client.Kvenc
import Stra2us.Client.Response
import Stra2us.Device.Serve
import Stra2us.Foundation.Native
import Stra2us.Server.Network

namespace Stra2us.Client

open Foundation Server

-- The library that sends the client's requests. It takes dot segments out of a path.
structure HttpLibrary where
  sent : Text → Text
  sent_plain : ∀ uri, (∀ segment ∈ uri.splitOn '/', segment ≠ ".".toList ∧ segment ≠ "..".toList) →
    sent uri = uri
  sent_dot : sent "/kv/.".toList = "/kv/".toList
  sent_dots : sent "/kv/..".toList = "/".toList

structure HttpReply where
  status : Nat
  content : Bytes
  timestamp : Option Text
  signature : Option Text

def HttpReply.isSuccess (reply : HttpReply) : Bool :=
  200 ≤ reply.status && reply.status < 300

-- The server, with the library on the way to it; an error comes as a page of the framework's.
structure Line where
  server : HttpServer
  site : Site
  library : HttpLibrary
  errorPage : Exn → Bytes

namespace Line

variable (line : Line)

-- The device endpoints give no answers but their own.
def reply : Except Exn Answer → HttpReply
  | .ok (.device response) =>
      ⟨response.status, response.body, some (intText response.timestamp), some response.signature⟩
  | .ok .admin => ⟨200, [], none, none⟩
  | .ok (.redirect _) => ⟨303, [], none, none⟩
  | .error (.http status detail) => ⟨status, line.errorPage (.http status detail), none, none⟩
  | .error exn => ⟨500, line.errorPage exn, none, none⟩

def exchange (uri : Text) (r : HttpRequest) (w : World) : HttpReply × World :=
  let served := (Device.serve line.server line.site 0
    { r with target := utf8 (line.library.sent uri) }).runOn w
  (line.reply served.1, served.2)

end Line

-- When a request is sent and when its answer is looked at, by the client's clock.
structure Times where
  sent : Int
  received : Int

namespace Stra2usClient

section Methods

variable (line : Line) (client : Stra2usClient)

-- Only what looks like a success has its signature checked.
def checked (hmac : Hmac) (uri : Text) (reply : HttpReply) (now : Int) : Except Exn HttpReply :=
  if reply.isSuccess then do
    client.verifyResp hmac uri reply.content reply.timestamp reply.signature now
    .ok reply
  else .ok reply

-- `_request`, from where the request is built.
def send (uri : Text) (built : Except Exn HttpRequest) (now : Int) (w : World) :
    Except Exn HttpReply × World :=
  match built with
  | .error exn => (.error exn, w)
  | .ok r =>
      let answered := line.exchange uri r w
      (client.checked line.site.hmac uri answered.1 now, answered.2)

def orRaise (reply : HttpReply) : Except Exn HttpReply :=
  if reply.isSuccess then .ok reply else .error error

def put (key : Text) (value : Value) (encrypted : Bool) (times : Times) (w : World) :
    Except Exn HttpReply × World :=
  let sent := client.send line (kvUri key)
    (client.putRequest line.site.hmac key value encrypted times.sent) times.received w
  (sent.1 >>= orRaise, sent.2)

def isMissing (pairs : List (Value × Value)) : Bool :=
  match Value.lookup pairs "status".toList with
  | some status => isText status "not_found".toList
  | none => false

-- What a decoded answer stands for: ciphertext for its plaintext, the sentinel for nothing.
def opened (hmac : Hmac) (timestamp : Option Text) : Value → Except Exn Value
  | .ext code data =>
      if code = kvencExtType then
        match timestamp with
        | none => .error error
        | some text => do
            let secret ← client.secretBytes
            match parseInt text with
            | none => .error (.python "ValueError".toList)
            | some nonce => do
                let plaintext ← Client.kvencXor hmac secret nonce data
                match utf8Decode plaintext with
                | some decoded => .ok (.str decoded)
                | none => .ok (.bytes plaintext)
      else .ok (.ext code data)
  | .dict pairs => if isMissing pairs then .ok .none else .ok (.dict pairs)
  | value => .ok value

def readReply (hmac : Hmac) (reply : HttpReply) : Except Exn Value :=
  if reply.status = 404 then .ok .none
  else if ¬ reply.isSuccess then .error error
  else
    match Msgpack.unpackb false reply.content with
    | none => .error error
    | some value => client.opened hmac reply.timestamp value

def get (key : Text) (times : Times) (w : World) : Except Exn Value × World :=
  let sent := client.send line (kvUri key)
    (client.getRequest line.site.hmac key times.sent) times.received w
  (sent.1 >>= client.readReply line.site.hmac, sent.2)

end Methods

end Stra2usClient

def publishError : Exn := .python "PublishError".toList

def raisedAs {α : Type} (result : Except Exn α) : Except Exn α :=
  match result with
  | .ok value => .ok value
  | .error exn => .error (if exn = Stra2usClient.error then publishError else exn)

-- `_put_and_verify`, over what its two calls come to.
def putAndVerify (value : Value) (written : Except Exn HttpReply) (reread : Except Exn Value) :
    Except Exn Unit := do
  let _ ← raisedAs written
  let observed ← raisedAs reread
  if Value.same observed value then .ok () else .error publishError

namespace Stra2usClient

open Msgpack (packb unpackb Native)

-- The client is known to the server, under the secret that it signs with, and may write the key.
structure Entitled (line : Line) (client : Stra2usClient) (key : Text) (w : World) : Prop where
  hex : (fromHex client.secretHex).isSome
  registered : Registered client.clientId client.secretHex line.site.jsonDepth w
  writes : ∀ acl, aclOfRecord line.site.jsonDepth (w.store.get (clientAclKey client.clientId)) =
    .ok acl → checkAcl acl ("kv/".toList ++ key) .write = .ok ()

-- Each side takes the other's time for the present.
structure InStep (times : Times) (w : World) : Prop where
  written : (natText times.sent.natAbs).length ≤ maxIntDigits
  fresh : verifyTimestamp w.clock times.sent = true
  present : ReadsFresh times.received (intText w.clock)

section Keys

variable {key : Text}

theorem isPathChar_of_unreserved (h : ∀ c ∈ key, Percent.isUnreserved c) :
    ∀ c ∈ key, Percent.isPathChar c := by
  intro c hc
  rw [Percent.isPathChar, h c hc, Bool.or_true]

theorem kvUri_plain (h : ∀ c ∈ key, Percent.isPathChar c) : kvUri key = "/kv/".toList ++ key := by
  rw [kvUri, (Percent.quotePath_eq_self_iff key).mpr h]

theorem slash_not_mem (h : ∀ c ∈ key, Percent.isUnreserved c) : '/' ∉ key :=
  fun hmem => absurd (h _ hmem) (by decide)

theorem splitOn_kv (h : '/' ∉ key) :
    ("/kv/".toList ++ key).splitOn '/' = [[], "kv".toList, key] := by
  have hkv : "/kv/".toList ++ key = [] ++ '/' :: ("kv".toList ++ '/' :: key) := rfl
  rw [hkv, List.splitOn_append_cons_self_of_not_mem (by simp),
    List.splitOn_append_cons_self_of_not_mem (by decide), List.splitOn_eq_singleton h]

-- A key that is no dot segment is sent as it is.
theorem sent_kv (library : HttpLibrary) (h : ∀ c ∈ key, Percent.isUnreserved c)
    (hdots : key ≠ ".".toList ∧ key ≠ "..".toList) :
    library.sent (kvUri key) = kvUri key := by
  apply library.sent_plain
  intro segment hsegment
  rw [kvUri_plain (isPathChar_of_unreserved h), splitOn_kv (slash_not_mem h)] at hsegment
  simp only [List.mem_cons, List.not_mem_nil, or_false] at hsegment
  rcases hsegment with rfl | rfl | rfl
  · decide
  · decide
  · exact hdots

theorem not_catalogYaml (h : '/' ∉ key) : isCatalogYamlKey key = false := by
  rw [isCatalogYamlKey, List.splitOn_eq_singleton h]

theorem scope_kv {server : HttpServer} {r : HttpRequest} (h : ∀ c ∈ key, Percent.isPathChar c)
    (htarget : r.target = utf8 (kvUri key)) :
    server.scope r = some ⟨"/kv/".toList ++ key, []⟩ ∧
      (server.request r ⟨"/kv/".toList ++ key, []⟩).path = kvUri key := by
  have hall := (isPathChar_append isPathChar_kv).mpr h
  have hquote : kvUri key = Percent.quotePath ("/kv/".toList ++ key) := by
    rw [kvUri, utf8_prefix_quote isPathChar_kv]
  have hchars := Percent.isTargetChar_quotePath ("/kv/".toList ++ key)
  rw [hquote] at htarget
  have hscope := scope_of_visible server htarget (visible_of_target hchars)
  have hself := (takeWhile_of_target hchars []).2
  have hquery : '?' ∉ "/kv/".toList ++ key := fun hmem => absurd (hall _ hmem) (by decide)
  have hfragment : '#' ∉ "/kv/".toList ++ key := fun hmem => absurd (hall _ hmem) (by decide)
  constructor
  · have hrest : (Percent.quotePath ("/kv/".toList ++ key)).dropWhile (· ≠ '?') = [] := by
      have htotal := List.takeWhile_append_dropWhile (p := (· ≠ '?'))
        (l := Percent.quotePath ("/kv/".toList ++ key))
      rw [hself] at htotal
      exact List.append_right_eq_self.mp htotal
    rw [hscope, hself, hrest, Percent.unquote_quotePath]
    rfl
  · rw [kvUri_plain h]
    exact server.urlPath_plain _ hquery hfragment

end Keys

section Calls

variable {line : Line} {client : Stra2usClient} {key : Text} {w : World} {times : Times}

theorem read_of_write {acl : Value} {resource : Text} (h : checkAcl acl resource .write = .ok ()) :
    checkAcl acl resource .read = .ok () := by
  unfold checkAcl at h ⊢
  cases hperms : getField acl "permissions".toList with
  | error exn =>
      rw [hperms] at h
      cases h
  | ok perms =>
      rw [hperms] at h
      simp only [bind, Except.bind] at h ⊢
      cases hitems : iterate (perms.getD (.list [])) with
      | error exn =>
          rw [hitems] at h
          cases h
      | ok items =>
          rw [hitems] at h
          exact Acl.checkPermissions_read_of_write h

-- A client with a secret, at a time that can be written out, has its request built.
theorem request_built (hmac : Hmac) (hhex : (fromHex client.secretHex).isSome) {ts : Int}
    (hdigits : (natText ts.natAbs).length ≤ maxIntDigits) (method uri : Text) (body : Bytes)
    (contentType : Option Text) :
    ∃ r sig, client.request hmac method uri body contentType [] ts = .ok r ∧
      r.headers = [("x-client-id".toList, client.clientId), ("x-timestamp".toList, intText ts),
        ("x-signature".toList, sig)] ++
          (contentType.map fun ct => ("content-type".toList, ct)).toList := by
  obtain ⟨secret, hsecret⟩ := Option.isSome_iff_exists.mp hhex
  refine ⟨⟨method, utf8 uri, _, body⟩,
    hexdigest (hmac secret (utf8 uri ++ body ++ utf8 (intText ts))), ?_, rfl⟩
  simp [request, sign, secretBytes, hsecret, strInt, hdigits, bind, Except.bind]

-- What the server makes of a request for the key that has come to it as it was signed.
theorem verified_kv {r : HttpRequest} {ts : Int} (hideal : IdealMac line.site.hmac)
    (hentitled : Entitled line client key w) (hfresh : verifyTimestamp w.clock ts = true)
    (hkey : ∀ c ∈ key, Percent.isPathChar c)
    (hsigns : Signs line.site.hmac r client.clientId client.secretHex (kvUri key) ts)
    (htarget : r.target = utf8 (kvUri key)) :
    ∃ context, (verifyDeviceRequest line.site.hmac line.site.jsonDepth
        (line.server.request r ⟨"/kv/".toList ++ key, []⟩)).runOn w = (.ok context, w) ∧
      context.clientId = client.clientId ∧ context.secretHex = client.secretHex ∧
        checkAcl context.acl ("kv/".toList ++ key) .write = .ok () := by
  obtain ⟨hscope, hpath⟩ := @scope_kv key line.server r hkey htarget
  obtain ⟨secret, hhex, hsignature⟩ := hsigns.signature
  have hpresents : Presents (line.server.request r ⟨"/kv/".toList ++ key, []⟩) client.clientId ts
      (hexdigest (line.site.hmac secret (signingPayload (kvUri key) r.body ts))) :=
    ⟨hsigns.client, ⟨_, requiredHeader_of_ne hsigns.timestamp (intText_ne_nil ts),
      by simp [parseTimestamp, parseInt_intText ts hsigns.digits]⟩, hsignature⟩
  obtain ⟨context, hrun⟩ := (verified_iff hideal hentitled.registered hhex hfresh hpresents).mpr
    (by rw [hpath]; rfl)
  obtain ⟨-, hverified⟩ := Device.verified_of_runOn hrun
  obtain ⟨timestamp, signature, hclaims, -⟩ := hverified.claims
  have hid : context.clientId = client.clientId := by
    have hclient := hclaims.client
    rw [requiredHeader_of_ne hpresents.client hentitled.registered.id_ne] at hclient
    exact (Except.ok.inj hclient).symm
  refine ⟨context, hrun, hid, ?_, ?_⟩
  · have hstored := hverified.secret
    rw [hid, hentitled.registered.secret] at hstored
    exact (utf8_injective (Option.some.inj hstored)).symm
  · have hloaded := hverified.acl
    rw [hid] at hloaded
    exact hentitled.writes context.acl hloaded

section Answers

variable {hmac : Hmac} {context : Context} {request : Request}

-- The answer is signed, at the server's time.
structure Replies (hmac : Hmac) (context : Context) (request : Request) (w : World)
    (response : Response) : Prop where
  status : response.status = 200
  time : response.timestamp = w.clock
  signed : SignedFor hmac context request response

theorem signedResponse_replies (body : Bytes) (w : World) : ∃ response,
    (signedResponse hmac context request body 200).runOn w = (.ok response, w) ∧
      Replies hmac context request w response ∧ response.body = body := by
  obtain ⟨sig, hsig⟩ := signPayload_isOk hmac context request.path body w.clock
  refine ⟨⟨200, body, msgpackMt, w.clock, sig⟩, ?_, ⟨rfl, rfl, hsig⟩, rfl⟩
  change (Handler.ofExcept (signPayload hmac context.secretHex request.path body w.clock) >>=
    fun sig => (pure ⟨200, body, msgpackMt, w.clock, sig⟩ : Handler Response)).runOn w = _
  rw [hsig]
  rfl

theorem signedMsgpack_replies {status : Text} (h : (utf8 status).length < 2 ^ 32) (w : World) :
    ∃ response, (signedMsgpack hmac context request (statusValue status)).runOn w =
      (.ok response, w) ∧ Replies hmac context request w response := by
  obtain ⟨body, hbody⟩ := packb_statusValue h
  obtain ⟨response, hrun, hreplies, -⟩ := @signedResponse_replies hmac context request body w
  refine ⟨response, ?_, hreplies⟩
  unfold signedMsgpack
  simp only [packOrRaise, hbody]
  exact hrun

def written (key : Text) (body : Bytes) (w : World) : World :=
  { w with store := (w.store.set (kvKey key) body).delete [encKey key] }

-- A write without the flag.
theorem writeKv_replies {gate : Gate} {body : Bytes}
    (hacl : checkAcl context.acl ("kv/".toList ++ key) .write = .ok ())
    (hbody : storedBody request = .ok body) (hcatalog : isCatalogYamlKey key = false)
    (hflag : request.header? "x-encrypted".toList = none) :
    ∃ response, (writeKv hmac gate context key request).runOn w =
        (.ok response, written key body w) ∧
      Replies hmac context request (written key body w) response := by
  obtain ⟨response, hrun, hreplies⟩ :=
    @signedMsgpack_replies hmac context request _ Device.ok_length (written key body w)
  refine ⟨response, ?_, hreplies⟩
  unfold writeKv
  rw [hacl, hbody, hcatalog, hflag]
  exact hrun

theorem readKv_replies {value : Bytes}
    (hacl : checkAcl context.acl ("kv/".toList ++ key) .read = .ok ())
    (hvalue : w.store.get (kvKey key) = some value) (hflag : w.store.get (encKey key) = none) :
    ∃ response, (readKv hmac context key request).runOn w = (.ok response, w) ∧
      Replies hmac context request w response ∧ response.body = value := by
  rw [Kv.readKv_stored hacl hvalue, hflag]
  exact signedResponse_replies value w

-- The client takes what is signed for the URI that it asked.
theorem checked_reply {response : Response} {now : Int} (hideal : IdealMac line.site.hmac)
    (hreplies : Replies line.site.hmac context request w response)
    (hsecret : context.secretHex = client.secretHex) (hpath : request.path = kvUri key)
    (hpresent : ReadsFresh now (intText w.clock)) :
    client.checked line.site.hmac (kvUri key) (line.reply (.ok (.device response))) now =
      .ok (line.reply (.ok (.device response))) := by
  obtain ⟨secret, hhex⟩ := Option.isSome_iff_exists.mp context.hexValid
  have hsigned := hreplies.signed
  unfold SignedFor signPayload calculateSignature at hsigned
  rw [hhex, hpath, hreplies.time] at hsigned
  rw [hsecret] at hhex
  have hverify : client.verifyResp line.site.hmac (kvUri key) response.body
      (some (intText response.timestamp)) (some response.signature) now = .ok () := by
    rw [← Except.ok.inj hsigned, hreplies.time]
    exact (verifyResp_iff hideal hhex).mpr ⟨hpresent, rfl⟩
  have hsuccess : (line.reply (.ok (.device response))).isSuccess = true := by
    simp [HttpReply.isSuccess, Line.reply, hreplies.status]
  unfold checked
  rw [if_pos hsuccess]
  change (client.verifyResp line.site.hmac (kvUri key) response.body
    (some (intText response.timestamp)) (some response.signature) now >>= fun _ => _) = _
  rw [hverify]
  rfl

end Answers

theorem exchange_kv {r : HttpRequest} {target : Route} {call : Call} {context : Context}
    (hkey : ∀ c ∈ key, Percent.isPathChar c) (hsent : line.library.sent (kvUri key) = kvUri key)
    (htarget : r.target = utf8 (kvUri key))
    (hroute : route r.method ("/kv/".toList ++ key) = some target)
    (hverify : (verifyDeviceRequest line.site.hmac line.site.jsonDepth
      (line.server.request r ⟨"/kv/".toList ++ key, []⟩)).runOn w = (.ok context, w))
    (hcall : target.call line.server 0 [] (line.server.request r ⟨"/kv/".toList ++ key, []⟩)
      context = .ok call) :
    line.exchange (kvUri key) r w =
      (line.reply ((call.handler line.site).runOn w).1, ((call.handler line.site).runOn w).2) := by
  have hsame : { r with target := utf8 (line.library.sent (kvUri key)) } = r := by
    rw [hsent, ← htarget]
  have hserved : (Device.serve line.server line.site 0 r).runOn w =
      (call.handler line.site).runOn w := by
    unfold Device.serve
    rw [(@scope_kv key line.server r hkey htarget).1]
    dsimp only
    rw [hroute]
    dsimp only
    rw [Handler.runOn_bind_of_ok hverify, hcall]
    rfl
  unfold Line.exchange
  rw [hsame, hserved]

-- What is sent of a value that can be packed is stored as it was packed.
theorem put_packed {value : Value} {body : Bytes} (hideal : IdealMac line.site.hmac)
    (hentitled : Entitled line client key w) (hstep : InStep times w)
    (hkey : ∀ c ∈ key, Percent.isUnreserved c) (hdots : key ≠ ".".toList ∧ key ≠ "..".toList)
    (hnative : Native value) (hpack : packb value = some body) :
    ∃ reply, client.put line key value false times w = (.ok reply, written key body w) := by
  obtain ⟨r, sig, hbuilt, hheaders⟩ := request_built line.site.hmac hentitled.hex hstep.written
    "POST".toList (kvUri key) body (some msgpackMt)
  obtain ⟨hsigns, hmethod, htarget, hsent⟩ := request_signs hbuilt
  have hplain := isPathChar_of_unreserved hkey
  obtain ⟨context, hverify, -, hsecret, hwrite⟩ :=
    verified_kv hideal hentitled hstep.fresh hplain hsigns htarget
  have hroute := @route_kv r.method key hplain
  rw [if_pos hmethod] at hroute
  have hexchange := exchange_kv hplain (sent_kv line.library hkey hdots) htarget hroute hverify rfl
  obtain ⟨hscope, hpath⟩ := @scope_kv key line.server r hplain htarget
  have hstored : storedBody (line.server.request r ⟨"/kv/".toList ++ key, []⟩) = .ok body := by
    have htype : (line.server.request r ⟨"/kv/".toList ++ key, []⟩).header?
        "content-type".toList = some msgpackMt := by
      simp only [Request.header?, HttpServer.request, hheaders]
      rfl
    have hbody : (line.server.request r ⟨"/kv/".toList ++ key, []⟩).body = body := hsent
    unfold storedBody
    rw [htype, hbody, Msgpack.unpackb_packb hnative hpack]
    dsimp only [Option.getD_some]
    rw [if_neg (by decide), if_neg (by simp)]
  have hflag : (line.server.request r ⟨"/kv/".toList ++ key, []⟩).header?
      "x-encrypted".toList = none := by
    simp only [Request.header?, HttpServer.request, hheaders]
    rfl
  obtain ⟨response, hrun, hreplies⟩ := @writeKv_replies key w line.site.hmac context _
    line.site.gate body hwrite hstored (not_catalogYaml (slash_not_mem hkey)) hflag
  have hanswer : (Call.handler line.site (.writeKv context key
      (line.server.request r ⟨"/kv/".toList ++ key, []⟩))).runOn w =
        (.ok (.device response), written key body w) := by
    change (Answer.device <$> writeKv _ _ _ _ _).runOn w = _
    rw [Handler.runOn_map, hrun]
    rfl
  rw [hanswer] at hexchange
  have hchecked := checked_reply hideal hreplies hsecret hpath hstep.present
  have hsuccess : orRaise (line.reply (.ok (.device response))) =
      .ok (line.reply (.ok (.device response))) := by
    simp [orRaise, HttpReply.isSuccess, Line.reply, hreplies.status]
  have hput : client.putRequest line.site.hmac key value false times.sent = .ok r := by
    unfold putRequest packOrRaise
    rw [hpack]
    exact hbuilt
  refine ⟨line.reply (.ok (.device response)), ?_⟩
  unfold put
  rw [hput]
  unfold send
  dsimp only
  rw [hexchange, hchecked]
  exact congrArg (fun result => (result, written key body w)) hsuccess

-- What is read of a key under which there is something, and no flag.
theorem get_stored {value : Bytes} (hideal : IdealMac line.site.hmac)
    (hentitled : Entitled line client key w) (hstep : InStep times w)
    (hkey : ∀ c ∈ key, Percent.isUnreserved c) (hdots : key ≠ ".".toList ∧ key ≠ "..".toList)
    (hvalue : w.store.get (kvKey key) = some value) (hflag : w.store.get (encKey key) = none) :
    ∃ reply, (client.get line key times w).1 = client.readReply line.site.hmac reply ∧
      reply.status = 200 ∧ reply.content = value := by
  obtain ⟨r, sig, hbuilt, hheaders⟩ := request_built line.site.hmac hentitled.hex hstep.written
    "GET".toList (kvUri key) [] none
  obtain ⟨hsigns, hmethod, htarget, hsent⟩ := request_signs hbuilt
  have hplain := isPathChar_of_unreserved hkey
  obtain ⟨context, hverify, -, hsecret, hwrite⟩ :=
    verified_kv hideal hentitled hstep.fresh hplain hsigns htarget
  have hroute := @route_kv r.method key hplain
  rw [hmethod, if_neg (by decide), if_pos rfl, ← hmethod] at hroute
  have hexchange := exchange_kv hplain (sent_kv line.library hkey hdots) htarget hroute hverify rfl
  obtain ⟨hscope, hpath⟩ := @scope_kv key line.server r hplain htarget
  obtain ⟨response, hrun, hreplies, hbody⟩ := @readKv_replies key w line.site.hmac context
    (line.server.request r ⟨"/kv/".toList ++ key, []⟩) value (read_of_write hwrite) hvalue hflag
  have hanswer : (Call.handler line.site (.readKv context key
      (line.server.request r ⟨"/kv/".toList ++ key, []⟩))).runOn w =
        (.ok (.device response), w) := by
    change (Answer.device <$> readKv _ _ _ _).runOn w = _
    rw [Handler.runOn_map, hrun]
    rfl
  rw [hanswer] at hexchange
  have hchecked := checked_reply hideal hreplies hsecret hpath hstep.present
  refine ⟨line.reply (.ok (.device response)), ?_, hreplies.status, hbody⟩
  unfold get getRequest
  rw [hbuilt]
  unfold send
  dsimp only
  rw [hexchange, hchecked]
  rfl

end Calls

section Refused

variable {line : Line} {client : Stra2usClient} {key : Text} {w : World} {times : Times}
  {value : Value}

-- An answer without the headers is raised, whatever its status.
theorem unsigned_raises (hmac : Hmac) (uri : Text) {reply : HttpReply} (now : Int)
    (h : reply.timestamp = none) :
    ∃ exn, (client.checked hmac uri reply now >>= orRaise) = .error exn := by
  unfold checked
  by_cases hsuccess : reply.isSuccess = true
  · rw [if_pos hsuccess, h]
    exact ⟨_, rfl⟩
  · rw [if_neg hsuccess]
    change ∃ exn, orRaise reply = .error exn
    rw [orRaise, if_neg hsuccess]
    exact ⟨_, rfl⟩

theorem put_of_error {r : HttpRequest} {exn : Exn} {w' : World}
    (hbuilt : client.putRequest line.site.hmac key value false times.sent = .ok r)
    (hserved : (Device.serve line.server line.site 0
      { r with target := utf8 (line.library.sent (kvUri key)) }).runOn w = (.error exn, w')) :
    ∃ exn, (client.put line key value false times w).1 = .error exn := by
  have hunsigned : (line.reply (.error exn)).timestamp = none := by
    cases exn <;> rfl
  unfold put
  rw [hbuilt]
  unfold send Line.exchange
  dsimp only
  rw [hserved]
  exact unsigned_raises _ _ _ hunsigned

theorem put_unpackable (h : packb value = none) :
    client.put line key value false times w = (.error (.python "ValueError".toList), w) := by
  unfold put putRequest packOrRaise
  rw [h]
  rfl

-- The path that is left of a dot segment is not the one that was signed.
theorem put_dot (hideal : IdealMac line.site.hmac)
    (hentitled : Entitled line client ".".toList w)
    (hfresh : verifyTimestamp w.clock times.sent = true) :
    ∃ exn, (client.put line ".".toList value false times w).1 = .error exn := by
  cases hbuilt : client.putRequest line.site.hmac ".".toList value false times.sent with
  | error exn =>
      unfold put
      rw [hbuilt]
      exact ⟨exn, rfl⟩
  | ok r =>
      cases hpack : packb value with
      | none =>
          rw [put_unpackable hpack]
          exact ⟨_, rfl⟩
      | some body =>
          have hrequest := hbuilt
          unfold putRequest packOrRaise at hrequest
          rw [hpack] at hrequest
          obtain ⟨hsigns, hmethod, htarget, hsent⟩ := request_signs hrequest
          let r' : HttpRequest := { r with target := utf8 (kvUri []) }
          obtain ⟨hscope, hpath⟩ := @scope_kv [] line.server r' (by simp) rfl
          obtain ⟨secret, hhex, hsignature⟩ := hsigns.signature
          have hpresents : Presents (line.server.request r' ⟨"/kv/".toList ++ [], []⟩)
              client.clientId times.sent (hexdigest (line.site.hmac secret
                (signingPayload (kvUri ".".toList) r.body times.sent))) :=
            ⟨hsigns.client, ⟨_, requiredHeader_of_ne hsigns.timestamp (intText_ne_nil _),
              by simp [parseTimestamp, parseInt_intText _ hsigns.digits]⟩, hsignature⟩
          have hverified := verified_iff hideal hentitled.registered hhex hfresh hpresents
          have hserved : ∃ exn w', (Device.serve line.server line.site 0
              { r with target := utf8 (line.library.sent (kvUri ".".toList)) }).runOn w =
                (.error exn, w') := by
            have htaken : line.library.sent (kvUri ".".toList) = kvUri [] :=
              line.library.sent_dot
            rw [htaken]
            change ∃ exn w', (Device.serve line.server line.site 0 r').runOn w = (.error exn, w')
            have hroute := @route_kv r'.method [] (by simp)
            rw [if_pos (show r'.method = "POST".toList from hmethod)] at hroute
            unfold Device.serve
            rw [hscope]
            dsimp only
            rw [hroute]
            dsimp only
            cases hrun : (verifyDeviceRequest line.site.hmac line.site.jsonDepth
                (line.server.request r' ⟨"/kv/".toList ++ [], []⟩)).runOn w with
            | mk result w' =>
                cases result with
                | error exn => exact ⟨exn, w', Handler.runOn_bind_of_error hrun⟩
                | ok context =>
                    obtain ⟨rfl, -⟩ := Device.verified_of_runOn hrun
                    have hsame := hverified.mp ⟨context, hrun⟩
                    rw [hpath] at hsame
                    exact absurd (signingPayload_inj.mp hsame) (by decide)
          obtain ⟨exn, w', hserved⟩ := hserved
          exact put_of_error hbuilt hserved

-- The root is no device endpoint.
theorem put_dots : ∃ exn, (client.put line "..".toList value false times w).1 = .error exn := by
  cases hbuilt : client.putRequest line.site.hmac "..".toList value false times.sent with
  | error exn =>
      unfold put
      rw [hbuilt]
      exact ⟨exn, rfl⟩
  | ok r =>
      let r' : HttpRequest := { r with target := utf8 "/".toList }
      have htaken : line.library.sent (kvUri "..".toList) = "/".toList := line.library.sent_dots
      have hvisible : ∀ c ∈ "/".toList, 0x21 ≤ c.toNat ∧ c.toNat ≤ 0x7e := by
        intro c hc
        rw [List.mem_singleton.mp hc]
        decide
      have hscope := @scope_of_visible line.server r' "/".toList rfl hvisible
      have hserved : (Device.serve line.server line.site 0
          { r with target := utf8 (line.library.sent (kvUri "..".toList)) }).runOn w =
            (.error (.http 404 "Not Found".toList), w) := by
        rw [htaken]
        change (Device.serve line.server line.site 0 r').runOn w = _
        unfold Device.serve
        rw [hscope]
        rfl
      exact put_of_error hbuilt hserved

end Refused

section RoundTrip

variable {line : Line} {client : Stra2usClient} {key : Text} {w w' : World} {times times' : Times}
  {value : Value}

-- Nobody has written the record, or the client's own records, in between.
structure Undisturbed (clientId key : Text) (w w' : World) : Prop where
  value : w'.store.get (kvKey key) = w.store.get (kvKey key)
  flag : w'.store.get (encKey key) = w.store.get (encKey key)
  secret : w'.store.get (clientSecretKey clientId) = w.store.get (clientSecretKey clientId)
  acl : w'.store.get (clientAclKey clientId) = w.store.get (clientAclKey clientId)

-- A map that reads as the answer for a key with nothing under it.
def ReadsMissing (value : Value) : Prop :=
  ∃ pairs, value = .dict pairs ∧ isMissing pairs = true

-- The value can be packed and is not taken for the sentinel, and the key is no dot segment.
def Survives (key : Text) (value : Value) : Prop :=
  (packb value).isSome ∧ ¬ ReadsMissing value ∧ key ≠ ".".toList ∧ key ≠ "..".toList

theorem get_written {body : Bytes} {other : Text} (hvalue : other ≠ kvKey key)
    (hflag : other ≠ encKey key) :
    (written key body w).store.get other = w.store.get other := by
  unfold written
  rw [Store.get_delete, if_neg (by simpa using hflag), Store.get_set_of_ne _ hvalue]

-- Nothing else is asked of the client's records.
theorem Entitled.keep (h : Entitled line client key w)
    (hsecret : w'.store.get (clientSecretKey client.clientId) =
      w.store.get (clientSecretKey client.clientId))
    (hacl : w'.store.get (clientAclKey client.clientId) =
      w.store.get (clientAclKey client.clientId)) : Entitled line client key w' := by
  refine ⟨h.hex, ⟨h.registered.id_ne, h.registered.secret_ne, ?_, ?_⟩, ?_⟩
  · rw [hsecret]
    exact h.registered.secret
  · rw [hacl]
    exact h.registered.acl
  · rw [hacl]
    exact h.writes

theorem client_ne_kv (rest rest' : Text) : "client:".toList ++ rest ≠ "kv:".toList ++ rest' := by
  intro hsame
  exact absurd (List.cons.inj hsame).1 (by decide)

theorem entitled_later {body : Bytes} (h : Entitled line client key w)
    (hundisturbed : Undisturbed client.clientId key (written key body w) w') :
    Entitled line client key w' := by
  apply h.keep
  · rw [hundisturbed.secret, get_written]
    · exact client_ne_kv _ _
    · exact client_ne_kv _ _
  · rw [hundisturbed.acl, get_written]
    · exact client_ne_kv _ _
    · exact client_ne_kv _ _

theorem opened_native (hmac : Hmac) (timestamp : Option Text) (h : Native value)
    (hnot : ¬ ReadsMissing value) : client.opened hmac timestamp value = .ok value := by
  cases h with
  | @dict pairs hkeys hdistinct hvalues =>
      have hother : ¬ isMissing pairs = true := fun hmissing => hnot ⟨pairs, rfl, hmissing⟩
      rw [opened, if_neg hother]
  | _ => rfl

theorem opened_missing (hmac : Hmac) (timestamp : Option Text) (h : ReadsMissing value) :
    client.opened hmac timestamp value = .ok .none := by
  obtain ⟨pairs, rfl, hmissing⟩ := h
  rw [opened, if_pos hmissing]

-- What has been put is read back, but for the sentinel.
theorem get_put {body : Bytes} (hideal : IdealMac line.site.hmac)
    (hkey : ∀ c ∈ key, Percent.isUnreserved c) (hdots : key ≠ ".".toList ∧ key ≠ "..".toList)
    (hnative : Native value) (hentitled : Entitled line client key w) (hstep : InStep times' w')
    (hpack : packb value = some body)
    (hundisturbed : Undisturbed client.clientId key (written key body w) w') :
    (¬ ReadsMissing value → (client.get line key times' w').1 = .ok value) ∧
      (ReadsMissing value → (client.get line key times' w').1 = .ok .none) := by
  have hvalue : w'.store.get (kvKey key) = some body := by
    rw [hundisturbed.value, written, Store.get_delete, if_neg, Store.get_set_self]
    simp [encKey]
  have hflag : w'.store.get (encKey key) = none := by
    rw [hundisturbed.flag, written, Store.get_delete, if_pos (by simp)]
  obtain ⟨reply, hget, hstatus, hcontent⟩ := get_stored hideal
    (entitled_later hentitled hundisturbed) hstep hkey hdots hvalue hflag
  have hread : client.readReply line.site.hmac reply =
      client.opened line.site.hmac reply.timestamp value := by
    have hsuccess : reply.isSuccess = true := by
      simp [HttpReply.isSuccess, hstatus]
    unfold readReply
    rw [if_neg (by omega), if_neg (by simp [hsuccess]), hcontent,
      Msgpack.unpackb_packb hnative hpack]
  rw [hget, hread]
  exact ⟨opened_native _ _ hnative, opened_missing _ _⟩

-- Put together: what is put is read back, and passes the check after a write, exactly when it
-- can be packed and is no map whose status says that nothing was found, under a key that is no
-- dot segment.
theorem roundTrip_iff (line : Line) (hideal : IdealMac line.site.hmac)
    (hkey : ∀ c ∈ key, Percent.isUnreserved c) (hnative : Native value)
    (hentitled : Entitled line client key w) (hstep : InStep times w) (hstep' : InStep times' w')
    (hundisturbed : Undisturbed client.clientId key
      (client.put line key value false times w).2 w') :
    (((∃ reply, (client.put line key value false times w).1 = .ok reply) ∧
        (client.get line key times' w').1 = .ok value) ↔ Survives key value) ∧
      (putAndVerify value (client.put line key value false times w).1
        (client.get line key times' w').1 = .ok () ↔ Survives key value) := by
  have hrefused : ∀ exn, (client.put line key value false times w).1 = .error exn →
      ¬ Survives key value → (((∃ reply, (client.put line key value false times w).1 = .ok reply) ∧
          (client.get line key times' w').1 = .ok value) ↔ Survives key value) ∧
        (putAndVerify value (client.put line key value false times w).1
          (client.get line key times' w').1 = .ok () ↔ Survives key value) := by
    intro exn hput hnot
    rw [hput]
    refine ⟨iff_of_false ?_ hnot, iff_of_false ?_ hnot⟩
    · rintro ⟨⟨reply, hreply⟩, -⟩
      cases hreply
    · intro hok
      cases hok
  by_cases hdot : key = ".".toList
  · subst hdot
    obtain ⟨exn, hput⟩ := @put_dot line client w times value hideal hentitled hstep.fresh
    exact hrefused exn hput fun h => h.2.2.1 rfl
  by_cases hdots : key = "..".toList
  · subst hdots
    obtain ⟨exn, hput⟩ := @put_dots line client w times value
    exact hrefused exn hput fun h => h.2.2.2 rfl
  cases hpack : packb value with
  | none =>
      have hput := @put_unpackable line client key w times value hpack
      refine hrefused _ (congrArg Prod.fst hput) fun h => ?_
      rw [Survives, hpack] at h
      cases h.1
  | some body =>
      obtain ⟨reply, hput⟩ :=
        put_packed hideal hentitled hstep hkey ⟨hdot, hdots⟩ hnative hpack
      rw [hput] at hundisturbed ⊢
      obtain ⟨hread, hmissing⟩ :=
        get_put hideal hkey ⟨hdot, hdots⟩ hnative hentitled hstep' hpack hundisturbed
      by_cases hsentinel : ReadsMissing value
      · have hnot : ¬ Survives key value := fun h => h.2.1 hsentinel
        rw [hmissing hsentinel]
        obtain ⟨pairs, rfl, -⟩ := hsentinel
        refine ⟨iff_of_false ?_ hnot, iff_of_false ?_ hnot⟩
        · rintro ⟨-, hsame⟩
          cases hsame
        · intro hok
          cases hok
      · have hsurvives : Survives key value := ⟨by rw [hpack]; rfl, hsentinel, hdot, hdots⟩
        rw [hread hsentinel]
        refine ⟨iff_of_true ⟨⟨reply, rfl⟩, rfl⟩ hsurvives, iff_of_true ?_ hsurvives⟩
        change (if Value.same value value then _ else _ : Except Exn Unit) = _
        rw [Msgpack.same_self hnative, if_pos rfl]

end RoundTrip

section Small

-- The segments that are left, with those that two dots take back.
def withoutDots : List Text → List Text → List Text
  | kept, [] => kept
  | kept, segment :: rest =>
      if segment = ".".toList then withoutDots kept rest
      else if segment = "..".toList then withoutDots kept.dropLast rest
      else withoutDots (kept ++ [segment]) rest

def normalised (uri : Text) : Text :=
  let kept := withoutDots [] (uri.splitOn '/')
  let rooted := if "/".toList <+: uri ∧ kept.head? ≠ some [] then [] :: kept else kept
  ['/'].intercalate (if "/.".toList <:+ uri ∨ "/..".toList <:+ uri then rooted ++ [[]] else rooted)

def isDots (segment : Text) : Bool :=
  segment = ".".toList ∨ segment = "..".toList

def normalising : HttpLibrary where
  sent uri := if (uri.splitOn '/').any isDots then normalised uri else uri
  sent_plain := by
    intro uri h
    have hnone : ¬ (uri.splitOn '/').any isDots = true := by
      intro hany
      obtain ⟨segment, hsegment, hdots⟩ := List.any_eq_true.mp hany
      exact (of_decide_eq_true hdots).elim (h segment hsegment).1 (h segment hsegment).2
    rw [if_neg hnone]
  sent_dot := by decide
  sent_dots := by decide

def smallLine : Line :=
  ⟨.standard, markingSite, normalising, fun _ => []⟩

theorem trusting_get {key : Text} (h : key ≠ clientAclKey ['c']) :
    World.trusting.store.get key = World.holding.store.get key :=
  Store.get_set_of_ne _ h _

theorem entitled_trusting : Entitled smallLine small ['k'] .trusting where
  hex := rfl
  registered := by
    refine ⟨by decide, by decide, ?_, ⟨anyAcl, acl_trusting⟩⟩
    exact (trusting_get (by decide)).trans registered_holding.secret
  writes := by
    intro acl hacl
    rw [← Except.ok.inj (acl_trusting.symm.trans hacl)]
    rfl

theorem inStep_hundred {w : World} (h : w.clock = 100) : InStep ⟨100, 100⟩ w where
  written := by decide
  fresh := by
    rw [h]
    rfl
  present := by
    rw [h]
    exact ⟨100, rfl, by decide⟩

theorem unreserved_k : ∀ c ∈ ['k'], Percent.isUnreserved c :=
  List.all_eq_true.mp (by decide)

-- A text comes back.
theorem roundTrip_hello :
    (∃ reply, (small.put smallLine ['k'] (.str "hello".toList) false ⟨100, 100⟩ .trusting).1 =
      .ok reply) ∧
    (small.get smallLine ['k'] ⟨100, 100⟩
      (small.put smallLine ['k'] (.str "hello".toList) false ⟨100, 100⟩ .trusting).2).1 =
        .ok (.str "hello".toList) := by
  have hpack : packb (.str "hello".toList) = some [0xa5, 0x68, 0x65, 0x6c, 0x6c, 0x6f] := rfl
  have hclock : (small.put smallLine ['k'] (.str "hello".toList) false ⟨100, 100⟩
      .trusting).2.clock = 100 := by
    obtain ⟨reply, hput⟩ := @put_packed smallLine small ['k'] .trusting ⟨100, 100⟩ _ _
      idealMac_marking entitled_trusting (inStep_hundred rfl) unreserved_k (by decide) (.str _)
      hpack
    rw [hput]
    rfl
  refine (@roundTrip_iff small ['k'] .trusting _ ⟨100, 100⟩ ⟨100, 100⟩ (.str "hello".toList)
    smallLine idealMac_marking unreserved_k (.str _) entitled_trusting (inStep_hundred rfl)
    (inStep_hundred hclock) ⟨rfl, rfl, rfl, rfl⟩).1.mpr ⟨?_, ?_, by decide, by decide⟩
  · rw [hpack]
    rfl
  · rintro ⟨pairs, hsame, -⟩
    cases hsame

-- The sentinel of the server is a value like any other to who writes it.
theorem sentinel_lost : ∃ reply w,
    small.put smallLine ['k'] (statusValue "not_found".toList) false ⟨100, 100⟩ .trusting =
      (.ok reply, w) ∧
    (small.get smallLine ['k'] ⟨100, 100⟩ w).1 = .ok .none ∧
    putAndVerify (statusValue "not_found".toList) (.ok reply)
      (small.get smallLine ['k'] ⟨100, 100⟩ w).1 = .error publishError := by
  have hnative : Native (statusValue "not_found".toList) := by
    refine .dict ?_ (List.nodup_singleton _) ?_
    · intro pair hpair
      rw [List.mem_singleton.mp hpair]
      rfl
    · intro pair hpair
      rw [List.mem_singleton.mp hpair]
      exact .str _
  obtain ⟨body, hpack⟩ := packb_statusValue Device.not_found_length
  obtain ⟨reply, hput⟩ := @put_packed smallLine small ['k'] .trusting ⟨100, 100⟩ _ _
    idealMac_marking entitled_trusting (inStep_hundred rfl) unreserved_k (by decide) hnative hpack
  have hget := (@get_put smallLine small ['k'] .trusting _ ⟨100, 100⟩ _ _ idealMac_marking
    unreserved_k (by decide) hnative entitled_trusting (inStep_hundred rfl) hpack
    ⟨rfl, rfl, rfl, rfl⟩).2 ⟨_, rfl, by decide⟩
  refine ⟨reply, _, hput, hget, ?_⟩
  rw [hget]
  rfl

end Small

end Stra2usClient

end Stra2us.Client
