import Stra2us.Client.Exchange
import Stra2us.Client.Settings
import Stra2us.Kv.Sealed

namespace Stra2us.Client

open Foundation Server Kv

-- A path that has dot segments is sent in fewer bytes.
def HttpLibrary.Shortens (library : HttpLibrary) : Prop :=
  ∀ uri : Text, (∃ segment ∈ uri.splitOn '/', segment = ".".toList ∨ segment = "..".toList) →
    (utf8 (library.sent uri)).length < (utf8 uri).length

namespace Stra2usClient

open Msgpack (bytesOf packb unpackb)

section Put

variable {line : Line} {client : Stra2usClient} {key : Text} {w w₁ : World} {times : Times}
  {value : Value} {encrypted : Bool} {reply : HttpReply}

theorem request_of_put {r : HttpRequest}
    (h : client.putRequest line.site.hmac key value encrypted times.sent = .ok r) :
    ∃ body, packb value = some body ∧
      client.request line.site.hmac "POST".toList (kvUri key) body (some msgpackMt)
        (if encrypted then [("x-encrypted".toList, "1".toList)] else []) times.sent = .ok r := by
  unfold putRequest packOrRaise at h
  cases hpack : packb value with
  | none =>
      rw [hpack] at h
      cases h
  | some body =>
      rw [hpack] at h
      exact ⟨body, rfl, h⟩

-- A put that returns has been answered.
theorem served_of_put (h : client.put line key value encrypted times w = (.ok reply, w₁)) :
    ∃ r answer, client.putRequest line.site.hmac key value encrypted times.sent = .ok r ∧
      (Device.serve line.server line.site 0
        { r with target := utf8 (line.library.sent (kvUri key)) }).runOn w = (.ok answer, w₁) := by
  unfold put at h
  cases hbuilt : client.putRequest line.site.hmac key value encrypted times.sent with
  | error exn =>
      rw [hbuilt] at h
      cases h
  | ok r =>
      rw [hbuilt] at h
      unfold send Line.exchange at h
      dsimp only at h
      cases hserved : (Device.serve line.server line.site 0
          { r with target := utf8 (line.library.sent (kvUri key)) }).runOn w with
      | mk result w' =>
          rw [hserved] at h
          obtain ⟨hreply, hworld⟩ := Prod.mk.inj h
          cases result with
          | ok answer =>
              obtain rfl : w' = w₁ := hworld
              exact ⟨r, answer, rfl, hserved⟩
          | error exn =>
              have hunsigned : (line.reply (.error exn)).timestamp = none := by
                cases exn <;> rfl
              obtain ⟨raised, hraised⟩ := @unsigned_raises client line.site.hmac (kvUri key)
                (line.reply (.error exn)) times.received hunsigned
              rw [hraised] at hreply
              cases hreply

-- The signature holds for the path that the server saw, and for no other.
theorem path_of_verified {r : HttpRequest} {scope : Scope} {context : Context} {ts : Int}
    (hideal : IdealMac line.site.hmac)
    (hregistered : Registered client.clientId client.secretHex line.site.jsonDepth w)
    (hsigns : Signs line.site.hmac r client.clientId client.secretHex (kvUri key) ts)
    (hverify : (verifyDeviceRequest line.site.hmac line.site.jsonDepth
      (line.server.request r scope)).runOn w = (.ok context, w)) :
    line.server.urlPath scope.path = kvUri key ∧ context.clientId = client.clientId ∧
      context.secretHex = client.secretHex ∧
        aclOfRecord line.site.jsonDepth (w.store.get (clientAclKey client.clientId)) =
          .ok context.acl := by
  obtain ⟨-, hverified⟩ := Device.verified_of_runOn hverify
  obtain ⟨timestamp, signature, hclaims, -, hvalid⟩ := hverified.claims
  obtain ⟨secret, hhex, hsignature⟩ := hsigns.signature
  have hfrom : (line.server.request r scope).header? "x-client-id".toList =
      some client.clientId := hsigns.client
  have hat : (line.server.request r scope).header? "x-timestamp".toList = some (intText ts) :=
    hsigns.timestamp
  have hunder : (line.server.request r scope).header? "x-signature".toList =
      some (hexdigest (line.site.hmac secret (signingPayload (kvUri key) r.body ts))) := hsignature
  have hid : context.clientId = client.clientId := by
    have hclient := hclaims.client
    rw [requiredHeader_of_ne hfrom hregistered.id_ne] at hclient
    exact (Except.ok.inj hclient).symm
  have hsecret : context.secretHex = client.secretHex := by
    have hstored := hverified.secret
    rw [hid, hregistered.secret] at hstored
    exact (utf8_injective (Option.some.inj hstored)).symm
  have hne : hexdigest (line.site.hmac secret (signingPayload (kvUri key) r.body ts)) ≠ [] := by
    intro hnil
    exact hideal.nonempty _ _ (hexdigest_injective hnil)
  have hsig : signature =
      hexdigest (line.site.hmac secret (signingPayload (kvUri key) r.body ts)) := by
    have hclaimed := hclaims.signature
    rw [requiredHeader_of_ne hunder hne] at hclaimed
    exact (Except.ok.inj hclaimed).symm
  have htime : timestamp = ts := by
    obtain ⟨text, htext, hparse⟩ := hclaims.timestamp
    rw [requiredHeader_of_ne hat (intText_ne_nil ts)] at htext
    rw [← Except.ok.inj htext] at hparse
    simp only [parseTimestamp, parseInt_intText ts hsigns.digits] at hparse
    exact (Except.ok.inj hparse).symm
  subst htime
  rw [hsig, hsecret] at hvalid
  have hacl := hverified.acl
  rw [hid] at hacl
  exact ⟨signingPayload_inj.mp ((verifySignature_hexdigest hideal hhex).mp hvalid), hid, hsecret,
    hacl⟩

-- Only what is sent as it was signed is let in, and that holds plain characters only.
theorem plain_of_verified {r : HttpRequest} {scope : Scope}
    (hshortens : line.library.Shortens)
    (hscope : line.server.scope { r with target := utf8 (line.library.sent (kvUri key)) } =
      some scope)
    (hpath : line.server.urlPath scope.path = kvUri key) :
    line.library.sent (kvUri key) = kvUri key ∧ ∀ c ∈ key, Percent.isPathChar c := by
  have hprefix := line.server.urlPath_prefix scope.path
  rw [hpath] at hprefix
  have hchars := Percent.isTargetChar_quotePath ("/kv/".toList ++ key)
  have huri : kvUri key = Percent.quotePath ("/kv/".toList ++ key) := by
    rw [kvUri, utf8_prefix_quote isPathChar_kv]
  have hascii : (utf8 (kvUri key)).length = (kvUri key).length := by
    rw [utf8_of_ascii, List.length_map]
    intro c hc
    have hvisible := visible_of_target hchars c (huri ▸ hc)
    omega
  have hsent : line.library.sent (kvUri key) = kvUri key := by
    apply line.library.sent_plain
    intro segment hsegment
    by_contra hdots
    have hlonger := hprefix.length_le
    have hscoped := length_scope hscope
    have hshorter := hshortens (kvUri key) ⟨segment, hsegment, by tauto⟩
    dsimp only at hscoped
    omega
  refine ⟨hsent, ?_⟩
  rw [hsent, huri] at hscope
  have hdecoded := scope_of_visible line.server (r := { r with target := utf8 _ }) rfl
    (visible_of_target hchars)
  rw [(takeWhile_of_target hchars []).2, Percent.unquote_quotePath] at hdecoded
  rw [hdecoded] at hscope
  obtain rfl := Option.some.inj hscope
  rw [huri] at hprefix
  have hself := hprefix.eq_of_length_le (Percent.length_quotePath _)
  have hall := (Percent.quotePath_eq_self_iff _).mp hself
  exact fun c hc => hall c (List.mem_append_right _ hc)

-- A put of a text with the flag that returns has sealed it, for a client that may write there.
theorem put_seals {text : Text} (hideal : IdealMac line.site.hmac)
    (hshortens : line.library.Shortens)
    (hregistered : Registered client.clientId client.secretHex line.site.jsonDepth w)
    (h : client.put line key (.str text) true times w = (.ok reply, w₁)) :
    (∃ body, packb (.str text) = some body ∧ w₁ = sealing key body w) ∧
      Entitled line client key w ∧ line.library.sent (kvUri key) = kvUri key ∧
        ∀ c ∈ key, Percent.isPathChar c := by
  obtain ⟨r, answer, hbuilt, hserved⟩ := served_of_put h
  obtain ⟨body, hpack, hrequest⟩ := request_of_put hbuilt
  obtain ⟨hsigns, hmethod, htarget, hsentBody⟩ := request_signs hrequest
  obtain ⟨scope, target, context, call, hscope, hroute, hverify, hcall, hrun⟩ :=
    Device.serve_ok hserved
  have hsigns' : Signs line.site.hmac { r with target := utf8 (line.library.sent (kvUri key)) }
      client.clientId client.secretHex (kvUri key) times.sent :=
    ⟨hsigns.client, hsigns.timestamp, hsigns.signature, hsigns.digits⟩
  obtain ⟨hpath, hid, hsecret, hacl⟩ := path_of_verified hideal hregistered hsigns' hverify
  obtain ⟨hsent, hplain⟩ := plain_of_verified hshortens hscope hpath
  have hsame : { r with target := utf8 (line.library.sent (kvUri key)) } = r := by
    rw [hsent, ← htarget]
  rw [hsame] at hscope hroute hverify hcall
  rw [(scope_kv hplain htarget).1] at hscope
  obtain rfl := Option.some.inj hscope
  rw [route_kv hplain, if_pos hmethod] at hroute
  obtain rfl := Option.some.inj hroute
  obtain rfl := Except.ok.inj hcall
  change (Answer.device <$> writeKv line.site.hmac line.site.gate context key _).runOn w = _ at hrun
  rw [Handler.runOn_map] at hrun
  cases hwrite : (writeKv line.site.hmac line.site.gate context key
      (line.server.request r ⟨"/kv/".toList ++ key, []⟩)).runOn w with
  | mk result w' =>
      rw [hwrite] at hrun
      cases result with
      | error exn => cases hrun
      | ok response =>
          obtain rfl : w' = w₁ := (Prod.mk.inj hrun).2
          obtain ⟨-, htype, hencrypted⟩ := @put_sent line.site.hmac client times.sent r key
            (.str text) true hbuilt (line.server.request r ⟨"/kv/".toList ++ key, []⟩) rfl
          have hflag := of_decide_eq_true hencrypted
          have hstored : storedBody (line.server.request r ⟨"/kv/".toList ++ key, []⟩) =
              .ok body := by
            have hbody : (line.server.request r ⟨"/kv/".toList ++ key, []⟩).body = body := hsentBody
            unfold storedBody
            rw [htype, hbody, Msgpack.unpackb_scalar rfl hpack]
            dsimp only [Option.getD_some]
            rw [if_neg (by decide), if_neg (by simp)]
          obtain ⟨hallowed, hsealed⟩ := writeKv_seals hflag hstored hwrite
          obtain ⟨secret, hhex, -⟩ := hsigns.signature
          refine ⟨⟨body, hpack, hsealed⟩, ⟨by rw [hhex]; rfl, hregistered, ?_⟩, hsent, hplain⟩
          intro acl hother
          rw [hacl] at hother
          rw [← Except.ok.inj hother]
          exact hallowed

end Put

section Get

variable {line : Line} {client : Stra2usClient} {key : Text} {w : World} {times : Times}

-- A get of a key that is sent as it is comes down to the server's read of it.
theorem get_runs (hideal : IdealMac line.site.hmac) (hentitled : Entitled line client key w)
    (hwritten : (natText times.sent.natAbs).length ≤ maxIntDigits)
    (hfresh : verifyTimestamp w.clock times.sent = true)
    (hkey : ∀ c ∈ key, Percent.isPathChar c) (hsent : line.library.sent (kvUri key) = kvUri key) :
    ∃ (context : Context) (request : Request), context.clientId = client.clientId ∧
      context.secretHex = client.secretHex ∧
      checkAcl context.acl ("kv/".toList ++ key) .read = .ok () ∧ request.path = kvUri key ∧
      (client.get line key times w).1 =
        (client.checked line.site.hmac (kvUri key)
            (line.reply (((readKv line.site.hmac context key request).runOn w).1.map Answer.device))
            times.received >>= client.readReply line.site.hmac) := by
  obtain ⟨r, sig, hbuilt, -⟩ := request_built line.site.hmac hentitled.hex hwritten
    "GET".toList (kvUri key) [] none
  obtain ⟨hsigns, hmethod, htarget, -⟩ := request_signs hbuilt
  obtain ⟨context, hverify, hid, hsecret, hwrite⟩ :=
    verified_kv hideal hentitled hfresh hkey hsigns htarget
  have hroute := @route_kv r.method key hkey
  rw [hmethod, if_neg (by decide), if_pos rfl, ← hmethod] at hroute
  have hexchange := exchange_kv hkey hsent htarget hroute hverify rfl
  refine ⟨context, line.server.request r ⟨"/kv/".toList ++ key, []⟩, hid, hsecret,
    read_of_write hwrite, (scope_kv hkey htarget).2, ?_⟩
  have hanswer : (Call.handler line.site (.readKv context key
      (line.server.request r ⟨"/kv/".toList ++ key, []⟩))).runOn w =
        (((readKv line.site.hmac context key
            (line.server.request r ⟨"/kv/".toList ++ key, []⟩)).runOn w).1.map Answer.device,
          ((readKv line.site.hmac context key
            (line.server.request r ⟨"/kv/".toList ++ key, []⟩)).runOn w).2) :=
    Handler.runOn_map _ _ _
  rw [hanswer] at hexchange
  unfold get getRequest
  rw [hbuilt]
  unfold send
  dsimp only
  rw [hexchange]

-- What comes without the headers is no text.
theorem unsigned_no_text (hmac : Hmac) (uri : Text) {reply : HttpReply} (now : Int) (text : Text)
    (h : reply.timestamp = none) :
    (client.checked hmac uri reply now >>= client.readReply hmac) ≠ .ok (.str text) := by
  unfold checked
  by_cases hsuccess : reply.isSuccess = true
  · rw [if_pos hsuccess, h]
    exact fun hok => nomatch hok
  · rw [if_neg hsuccess]
    change client.readReply hmac reply ≠ _
    unfold readReply
    by_cases hmissing : reply.status = 404
    · rw [if_pos hmissing]
      exact fun hok => nomatch hok
    · rw [if_neg hmissing, if_pos hsuccess]
      exact fun hok => nomatch hok

-- An answer under a nonce is opened where the nonce is taken for the present.
theorem get_opens {hmac : Hmac} {secretHex : Text} {response : Response} {text : Text} {nonce : Int}
    (hideal : IdealMac hmac) (hsecretHex : secretHex = client.secretHex)
    (hstatus : response.status = 200) (htime : response.timestamp = nonce)
    (hfits : 0 ≤ nonce ∧ nonce < 2 ^ 32)
    (hsigned : signPayload hmac secretHex (kvUri key) response.body nonce = .ok response.signature)
    (hopens : Recovers hmac secretHex response (utf8 text)) (now : Int) :
    (client.checked hmac (kvUri key) (line.reply (.ok (.device response))) now >>=
        client.readReply hmac) = .ok (.str text) ↔ (now - nonce).natAbs ≤ clockDriftSeconds := by
  obtain ⟨secret, ciphertext, hhex, hbody, hplain⟩ := hopens
  have hdigits : (natText nonce.natAbs).length ≤ maxIntDigits := by
    have hten := (Nat.length_toDigits_le_iff (b := 10) (n := nonce.natAbs) (k := 10) (by omega)
      (by omega)).mpr (by omega)
    simp only [natText, maxIntDigits]
    omega
  have hsig : response.signature ≠ [] := by
    have hdigest := hsigned
    unfold signPayload calculateSignature at hdigest
    rw [hhex] at hdigest
    rw [← Except.ok.inj hdigest]
    exact fun hnil => hideal.nonempty _ _ (hexdigest_injective hnil)
  have hsuccess : (line.reply (.ok (.device response))).isSuccess = true := by
    simp [HttpReply.isSuccess, Line.reply, hstatus]
  rw [hsecretHex] at hsigned hhex
  have hverify := @verifyResp_signed hmac client (kvUri key) response.body now nonce
    response.signature hsigned hsig hdigits
  unfold checked
  rw [if_pos hsuccess]
  change ((client.verifyResp hmac (kvUri key) response.body (some (intText response.timestamp))
    (some response.signature) now >>= fun _ => Except.ok _) >>= _) = _ ↔ _
  rw [htime]
  cases hcheck : client.verifyResp hmac (kvUri key) response.body (some (intText nonce))
      (some response.signature) now with
  | error exn =>
      rw [hcheck] at hverify
      constructor
      · intro h
        cases h
      · intro hle
        cases hverify.mpr hle
  | ok checked =>
      rw [hcheck] at hverify
      refine iff_of_true ?_ (hverify.mp rfl)
      have hstatus' : (line.reply (.ok (.device response))).status = 200 := hstatus
      have hcontent : (line.reply (.ok (.device response))).content = response.body := rfl
      have hread : client.readReply hmac (line.reply (.ok (.device response))) =
          client.opened hmac (some (intText nonce)) (.ext kvencExtType ciphertext) := by
        unfold readReply
        rw [if_neg (by omega), if_neg (not_not.mpr hsuccess), hcontent, hbody, ← htime]
        rfl
      have hbytes : client.secretBytes = .ok secret := by
        rw [secretBytes, hhex]
      rw [htime] at hplain
      change client.readReply hmac (line.reply (.ok (.device response))) = _
      rw [hread, opened, if_pos rfl]
      simp only [hbytes, bind, Except.bind, parseInt_intText nonce hdigits, hplain, utf8Decode_utf8]

-- What is read of a text under the flag.
theorem get_sealed_iff {text : Text} {body : Bytes} (hideal : IdealMac line.site.hmac)
    (hblocks : BlocksOf32 line.site.hmac) (hentitled : Entitled line client key w)
    (hwritten : (natText times.sent.natAbs).length ≤ maxIntDigits)
    (hfresh : verifyTimestamp w.clock times.sent = true)
    (hkey : ∀ c ∈ key, Percent.isPathChar c) (hsent : line.library.sent (kvUri key) = kvUri key)
    (hpack : packb (.str text) = some body) (hvalue : w.store.get (kvKey key) = some body)
    (hflag : truthy (w.store.get (encKey key)) = true) :
    (client.get line key times w).1 = .ok (.str text) ↔ (utf8 text).length ≤ 8160 ∧
      ∃ nonce, (kvencNonceLua w.store (nonceKey client.clientId) w.clock).1 = some nonce ∧
        (0 ≤ nonce ∧ nonce < 2 ^ 32) ∧ (times.received - nonce).natAbs ≤ clockDriftSeconds := by
  obtain ⟨context, request, hid, hsecret, hread, hpath, hget⟩ :=
    get_runs hideal hentitled hwritten hfresh hkey hsent
  have hplain : encryptedPlaintext body = .ok (utf8 text) := (plaintext_of_packb hpack).mpr rfl
  rw [hget]
  cases hrun : (readKv line.site.hmac context key request).runOn w with
  | mk result w' =>
      cases result with
      | error exn =>
          have hunsigned : (line.reply (.error exn)).timestamp = none := by
            cases exn <;> rfl
          refine iff_of_false (unsigned_no_text _ _ _ _ hunsigned) ?_
          rintro ⟨hlength, nonce, hdraws, hfits, -⟩
          rw [← hid] at hdraws
          obtain ⟨response, other, hok, -⟩ := @readKv_opens line.site.hmac context key request w
            body (utf8 text) nonce hblocks hread hvalue hflag hplain hlength hdraws hfits
          rw [hrun] at hok
          cases (Prod.mk.inj hok).1
      | ok response =>
          obtain ⟨plaintext, nonce, hother, hlength, hdraws, hfits⟩ :=
            readKv_served hblocks hread hvalue hflag hrun
          rw [hplain] at hother
          obtain rfl := Except.ok.inj hother
          obtain ⟨served, other, hok, hstatus, htime, hsigned, hopens⟩ := @readKv_opens
            line.site.hmac context key request w body (utf8 text) nonce hblocks hread hvalue hflag
            hplain hlength hdraws hfits
          rw [hrun] at hok
          obtain rfl := Except.ok.inj (Prod.mk.inj hok).1
          rw [hpath] at hsigned
          rw [hid] at hdraws
          refine (get_opens hideal hsecret hstatus htime hfits hsigned hopens _).trans ?_
          constructor
          · intro hpresent
            exact ⟨hlength, nonce, hdraws, hfits, hpresent⟩
          · rintro ⟨-, drawn, hdrawn, -, hpresent⟩
            rw [hdraws] at hdrawn
            rw [Option.some.inj hdrawn]
            exact hpresent

end Get

section Readable

variable {line : Line} {client : Stra2usClient} {key : Text} {w w' : World} {times : Times}

-- The server takes the client's time for the present.
structure Timely (times : Times) (w : World) : Prop where
  written : (natText times.sent.natAbs).length ≤ maxIntDigits
  fresh : verifyTimestamp w.clock times.sent = true

theorem get_sealing {body : Bytes} {other : Text} (hvalue : other ≠ kvKey key)
    (hflag : other ≠ encKey key) : (sealing key body w).store.get other = w.store.get other := by
  unfold sealing
  rw [Store.get_set_of_ne _ hflag, Store.get_set_of_ne _ hvalue]

theorem entitled_sealing {body : Bytes} (h : Entitled line client key w)
    (hundisturbed : Undisturbed client.clientId key (sealing key body w) w') :
    Entitled line client key w' := by
  apply h.keep
  · rw [hundisturbed.secret, get_sealing]
    · exact client_ne_kv _ _
    · exact client_ne_kv _ _
  · rw [hundisturbed.acl, get_sealing]
    · exact client_ne_kv _ _
    · exact client_ne_kv _ _

-- Put together: whatever is accepted with the flag is read back exactly when it is text or binary
-- short of the last block and the next nonce has four bytes; and the client gets the text that it
-- has put exactly when, besides, it takes that nonce for the present.
theorem encrypted_readable_iff (line : Line) (hblocks : BlocksOf32 line.site.hmac) :
    (∀ {key : Text} {content : Option Value} {w w' later : World} {context : Context}
        {request : Request}, EncryptedWrite line.site key content w w' → Kept key w' later →
      checkAcl context.acl ("kv/".toList ++ key) .read = .ok () →
      (ReadsBack line.site.hmac context key request content later ↔
        Sealable content ∧ NonceFits context.clientId later)) ∧
    ∀ {client : Stra2usClient} {key text : Text} {times times' : Times} {reply : HttpReply}
        {w w₁ w' : World}, IdealMac line.site.hmac → line.library.Shortens →
      Registered client.clientId client.secretHex line.site.jsonDepth w →
      client.put line key (.str text) true times w = (.ok reply, w₁) →
      Undisturbed client.clientId key w₁ w' → Timely times' w' →
      ((client.get line key times' w').1 = .ok (.str text) ↔ (utf8 text).length ≤ 8160 ∧
        ∃ nonce, (kvencNonceLua w'.store (nonceKey client.clientId) w'.clock).1 = some nonce ∧
          (0 ≤ nonce ∧ nonce < 2 ^ 32) ∧
            (times'.received - nonce).natAbs ≤ clockDriftSeconds) := by
  constructor
  · intro key content w w' later context request hwrite hkept hacl
    exact hwrite.readsBack_iff hblocks hkept hacl
  · intro client key text times times' reply w w₁ w' hideal hshortens hregistered hput hundisturbed
      htimely
    obtain ⟨⟨body, hpack, rfl⟩, hentitled, hsent, hkey⟩ :=
      put_seals hideal hshortens hregistered hput
    have hvalue := hundisturbed.value.trans (sealing_value key body w)
    have hflag : truthy (w'.store.get (encKey key)) = true := by
      rw [hundisturbed.flag]
      exact sealing_flag key body w
    exact get_sealed_iff hideal hblocks (entitled_sealing hentitled hundisturbed) htimely.written
      htimely.fresh hkey hsent hpack hvalue hflag

end Readable

section Small

-- A digest that shows its message, and has 32 bytes for the blocks of a keystream.
def tagged : Hmac := fun _ message =>
  if kvencLabel <+: message ∧ message.length = 21 then message ++ List.replicate 11 0
  else 0 :: message

theorem blocksOf32_tagged : BlocksOf32 tagged := by
  intro secret nonce counter
  have hlength : (kvencBlockInput nonce counter).length = 21 := by
    simp only [kvencBlockInput, List.length_append, length_beBytes, List.length_singleton]
    decide
  have hlabel : kvencLabel <+: kvencBlockInput nonce counter := by
    rw [kvencBlockInput, List.append_assoc]
    exact List.prefix_append _ _
  unfold keystreamBlock tagged
  rw [if_pos ⟨hlabel, hlength⟩, List.length_append, hlength, List.length_replicate]

theorem idealMac_tagged : IdealMac tagged where
  injective := by
    have hhead : ∀ {message other : Bytes}, kvencLabel <+: message →
        message ++ List.replicate 11 0 ≠ 0 :: other := by
      rintro _ other ⟨tail, rfl⟩ hsame
      exact absurd (List.cons.inj hsame).1 (by decide)
    intro secret message other hsame
    unfold tagged at hsame
    by_cases hmessage : kvencLabel <+: message ∧ message.length = 21
    · by_cases hother : kvencLabel <+: other ∧ other.length = 21
      · rw [if_pos hmessage, if_pos hother] at hsame
        exact List.append_cancel_right hsame
      · rw [if_pos hmessage, if_neg hother] at hsame
        exact absurd hsame (hhead hmessage.1)
    · by_cases hother : kvencLabel <+: other ∧ other.length = 21
      · rw [if_neg hmessage, if_pos hother] at hsame
        exact absurd hsame.symm (hhead hother.1)
      · rw [if_neg hmessage, if_neg hother] at hsame
        exact (List.cons.inj hsame).2
  nonempty := by
    intro secret message
    unfold tagged
    split
    · simp
    · exact List.cons_ne_nil _ _

-- On the way of the two dotted keys, and of any other path without a dot segment.
def cutting : HttpLibrary where
  sent uri :=
    if (uri.splitOn '/').any isDots then
      if uri = "/kv/.".toList then "/kv/".toList
      else if uri = "/kv/..".toList then "/".toList
      else []
    else uri
  sent_plain := by
    intro uri h
    have hnone : ¬ (uri.splitOn '/').any isDots = true := by
      intro hany
      obtain ⟨segment, hsegment, hdots⟩ := List.any_eq_true.mp hany
      exact (of_decide_eq_true hdots).elim (h segment hsegment).1 (h segment hsegment).2
    rw [if_neg hnone]
  sent_dot := by decide
  sent_dots := by decide

theorem shortens_cutting : cutting.Shortens := by
  rintro uri ⟨segment, hsegment, hdots⟩
  have hany : (uri.splitOn '/').any isDots = true :=
    List.any_eq_true.mpr ⟨segment, hsegment, decide_eq_true hdots⟩
  unfold cutting
  dsimp only
  rw [if_pos hany]
  split
  · next hdot =>
      rw [hdot]
      decide
  split
  · next hdot =>
      rw [hdot]
      decide
  · have hne : uri ≠ [] := by
      rintro rfl
      cases hany
    exact List.length_pos_iff.mpr (utf8_ne_nil hne)

def taggedLine : Line :=
  ⟨.standard, { markingSite with hmac := tagged }, cutting, fun _ => []⟩

-- Right after the put, its record and the clock are as they were.
def afterPut : World :=
  (small.put taggedLine ['k'] (.str "hello".toList) true ⟨100, 100⟩ .trusting).2

-- A short text comes back.
theorem readable_hello :
    (small.get taggedLine ['k'] ⟨100, 100⟩ afterPut).1 = .ok (.str "hello".toList) := by
  have hput : (small.put taggedLine ['k'] (.str "hello".toList) true ⟨100, 100⟩
      .trusting).1.isOk = true := by decide +kernel
  cases hrun : small.put taggedLine ['k'] (.str "hello".toList) true ⟨100, 100⟩ .trusting with
  | mk result w₁ =>
      rw [hrun] at hput
      cases result with
      | error exn => cases hput
      | ok reply =>
          have hafter : afterPut = w₁ := congrArg Prod.snd hrun
          have hclock : afterPut.clock = 100 := by decide +kernel
          refine ((encrypted_readable_iff taggedLine blocksOf32_tagged).2 idealMac_tagged
            shortens_cutting entitled_trusting.registered hrun (hafter ▸ ⟨rfl, rfl, rfl, rfl⟩)
            ⟨by decide, by rw [hclock]; rfl⟩).mpr ⟨by decide, 100, by decide +kernel, by decide, ?_⟩
          decide

end Small

section Numeric

def numericSite : Site where
  hmac := fun _ _ => List.replicate 32 0
  jsonDepth := 8
  rescueUsers := ["ops@example.com".toList]
  safeLoad := fun _ => .ok (.dict [(.str "vars".toList, .dict [(.str "wifi_pass".toList,
    .dict [(.str "encrypted".toList, .bool true)])])])
  gate := fun _ => .ok ()

def cataloged : World :=
  ⟨Store.empty.set (catalogKey ['a']) [0xa0], 100, 0⟩

def afterForm : World :=
  ((submitDeviceForm numericSite "ops@example.com".toList ['a'] ['d']
    [("wifi_pass".toList, "12345678".toList)]).runOn cataloged).2

-- A password of digits is stored as a number, which no read encrypts.
theorem numeric_unreadable : ¬ ∀ (site : Site) (key : Text) (content : Option Value) (w w' : World)
    (context : Context) (request : Request), EncryptedWrite site key content w w' →
      checkAcl context.acl ("kv/".toList ++ key) .read = .ok () →
        ReadsBack site.hmac context key request content w' := by
  intro hreadable
  have hrun : (submitDeviceForm numericSite "ops@example.com".toList ['a'] ['d']
      ([] ++ ("wifi_pass".toList, "12345678".toList) :: [])).runOn cataloged =
        (.ok "/app/a/d".toList, afterForm) := by
    rw [List.nil_append]
    exact Prod.ext (by decide +kernel) (by rw [afterForm])
  have hloaded : (loadCatalogDict numericSite ['a']).runOn cataloged = (.ok (some
      [(.str "vars".toList, .dict [(.str "wifi_pass".toList,
        .dict [(.str "encrypted".toList, .bool true)])])]), cataloged) := by
    have hpack : packb (.str []) = some [0xa0] := rfl
    have hstashed : cataloged.store.get (catalogKey ['a']) = some [0xa0] := Store.get_set_self _ _ _
    unfold loadCatalogDict
    change (Handler.ofExcept (catalogOfRecord numericSite
      (cataloged.store.get (catalogKey ['a'])))).runOn cataloged = _
    rw [hstashed, catalogOfRecord, Option.bind_some, Msgpack.unpackb_scalar rfl hpack]
    rfl
  have hdecoded : (decodeFormValue numericSite "12345678".toList).isOk = true := by decide +kernel
  cases hcontent : decodeFormValue numericSite "12345678".toList with
  | error exn =>
      rw [hcontent] at hdecoded
      cases hdecoded
  | ok content =>
      have hwrite : EncryptedWrite numericSite (fieldKey ['a'] ['d'] "wifi_pass".toList)
          (some content) cataloged afterForm :=
        .form ⟨rescueAcl, rfl, rfl⟩ hloaded (by decide) (by decide) hcontent (by simp) hrun
      obtain ⟨response, w'', plaintext, hread, -⟩ := hreadable numericSite _ _ _ _ .small
        ⟨"GET".toList, "/kv/a/d/wifi_pass".toList, [], []⟩ hwrite (by decide)
      have hfails : ((readKv numericSite.hmac .small (fieldKey ['a'] ['d'] "wifi_pass".toList)
          ⟨"GET".toList, "/kv/a/d/wifi_pass".toList, [], []⟩).runOn afterForm).1.isOk = false := by
        decide +kernel
      rw [hread] at hfails
      cases hfails

end Numeric

end Stra2usClient

end Stra2us.Client
