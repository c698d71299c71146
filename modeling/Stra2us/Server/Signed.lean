import Stra2us.Server.Trace
import Stra2us.Server.Wire

namespace Stra2us.Server

open Foundation

namespace Handler

variable {α β : Type}

-- Whatever the handler returns without an error is so.
def Ensures (P : α → Prop) (handler : Handler α) : Prop :=
  ∀ events value, Returns handler events (.ok value) → P value

theorem ensures_bind {P : β → Prop} {handler : Handler α} {f : α → Handler β}
    (h : ∀ mid, Ensures P (f mid)) : Ensures P (handler >>= f) := by
  intro events value hreturns
  obtain ⟨_, second, mid, -, -, hlast⟩ := returns_bind_ok.mp hreturns
  exact h mid second value hlast

theorem ensures_map {P : β → Prop} {handler : Handler α} {f : α → β}
    (h : Ensures (fun value => P (f value)) handler) : Ensures P (f <$> handler) := by
  intro events value hreturns
  obtain ⟨mid, hmid, rfl⟩ := returns_map_ok.mp hreturns
  exact h events mid hmid

theorem ensures_throw {P : α → Prop} {exn : Exn} : Ensures P (throw exn : Handler α) := by
  intro events value hreturns
  cases (returns_throw.mp hreturns).2

end Handler

open Handler

section Answers

variable {hmac : Hmac} {context : Context} {request : Request}

-- The signature of an answer covers the path of its request, its body and its timestamp.
def SignedFor (hmac : Hmac) (context : Context) (request : Request) (response : Response) : Prop :=
  signPayload hmac context.secretHex request.path response.body response.timestamp =
    .ok response.signature

theorem signedResponse_signed (body : Bytes) (status : Nat) :
    Ensures (SignedFor hmac context request) (signedResponse hmac context request body status) := by
  intro events response hreturns
  obtain ⟨thread, ts, -, hbody, -, hts, hsig⟩ := signedResponse_returns hreturns
  rw [SignedFor, hbody, hts]
  exact hsig

theorem signedMsgpack_signed (obj : Value) :
    Ensures (SignedFor hmac context request) (signedMsgpack hmac context request obj) :=
  ensures_bind fun body => signedResponse_signed body 200

theorem signedEncryptedResponse_signed (plaintext : Bytes) (nonce : Int) :
    Ensures (SignedFor hmac context request)
      (Handler.ofExcept (signedEncryptedResponse hmac context request plaintext nonce)) := by
  intro events response hreturns
  have hresponse := (returns_ofExcept.mp hreturns).2.symm
  unfold signedEncryptedResponse at hresponse
  cases hx : kvencXor hmac context.secretHex nonce plaintext with
  | error exn =>
      rw [hx] at hresponse
      cases hresponse
  | ok ciphertext =>
      rw [hx] at hresponse
      cases hp : packOrRaise (.ext kvencExtType ciphertext) with
      | error exn =>
          simp only [hp, bind, Except.bind] at hresponse
          cases hresponse
      | ok body =>
          cases hs : signPayload hmac context.secretHex request.path body nonce with
          | error exn =>
              simp only [hp, hs, bind, Except.bind] at hresponse
              cases hresponse
          | ok sig =>
              simp only [hp, hs, bind, Except.bind] at hresponse
              rw [SignedFor, ← Except.ok.inj hresponse]
              exact hs

theorem publishMessage_signed (topic : Text) (ttl : Int) :
    Ensures (SignedFor hmac context request) (publishMessage hmac context topic request ttl) := by
  apply ensures_bind
  intro _
  apply ensures_bind
  intro body
  apply ensures_bind
  intro now
  apply ensures_bind
  intro exp
  apply ensures_bind
  intro _
  apply ensures_bind
  intro _
  exact signedMsgpack_signed _

theorem handOut_signed (envelope : Bool) (message : Option Entry) :
    Ensures (fun tagged => SignedFor hmac context request tagged.2)
      (handOut hmac context request envelope message) := by
  cases message with
  | none => exact ensures_map (signedResponse_signed _ _)
  | some entry =>
      apply ensures_bind
      intro body
      exact ensures_map (signedResponse_signed _ _)

theorem consumeMessage_signed (topic : Text) (envelope : Bool) (fuel : Nat) :
    Ensures (SignedFor hmac context request)
      (consumeMessage hmac context topic request envelope fuel) := by
  apply ensures_map
  apply ensures_bind
  intro _
  apply ensures_bind
  intro stored
  apply ensures_bind
  intro lastId
  apply ensures_bind
  intro currentTime
  apply ensures_bind
  intro message
  exact handOut_signed envelope message

theorem writeKv_signed (gate : Gate) (key : Text) :
    Ensures (SignedFor hmac context request) (writeKv hmac gate context key request) := by
  have hstore : ∀ body, Ensures (SignedFor hmac context request)
      (Handler.set (kvKey key) body >>= fun _ =>
        if request.header? "x-encrypted".toList = some "1".toList then
          Handler.set (encKey key) (utf8 "1".toList) >>= fun _ =>
            signedMsgpack hmac context request (statusValue "ok".toList)
        else
          Handler.delete [encKey key] >>= fun _ =>
            signedMsgpack hmac context request (statusValue "ok".toList)) := by
    intro body
    apply ensures_bind
    intro _
    split
    · exact ensures_bind fun _ => signedMsgpack_signed _
    · exact ensures_bind fun _ => signedMsgpack_signed _
  apply ensures_bind
  intro _
  apply ensures_bind
  intro body
  by_cases hgate : isCatalogYamlKey key ∧ body ≠ []
  · dsimp only
    rw [if_pos hgate]
    exact ensures_bind fun _ => hstore body
  · dsimp only
    rw [if_neg hgate]
    exact hstore body

theorem readKv_signed (key : Text) :
    Ensures (SignedFor hmac context request) (readKv hmac context key request) := by
  apply ensures_bind
  intro _
  apply ensures_bind
  intro stored
  cases stored with
  | none => exact signedMsgpack_signed _
  | some value =>
      apply ensures_bind
      intro flag
      split
      · apply ensures_bind
        intro plaintext
        apply ensures_bind
        intro nonce
        exact signedEncryptedResponse_signed plaintext nonce
      · exact signedResponse_signed value 200

theorem deleteKv_signed (key : Text) :
    Ensures (SignedFor hmac context request) (deleteKv hmac context key request) := by
  apply ensures_bind
  intro _
  apply ensures_bind
  intro _
  exact signedMsgpack_signed _

end Answers

-- The client a call is answered for, and the request it came with.
def Call.session? : Call → Option (Context × Request)
  | .publish context _ request _ => some (context, request)
  | .consume context _ request _ _ => some (context, request)
  | .writeKv context _ request => some (context, request)
  | .readKv context _ request => some (context, request)
  | .deleteKv context _ request => some (context, request)
  | _ => none

theorem Call.signed {site : Site} {call : Call} {context : Context} {request : Request}
    (hcall : call.session? = some (context, request)) :
    Ensures (fun answer => ∃ response, answer = .device response ∧
      SignedFor site.hmac context request response) (call.handler site) := by
  have hdevice : ∀ handler : Handler Response,
      Ensures (SignedFor site.hmac context request) handler →
      Ensures (fun answer => ∃ response, answer = .device response ∧
        SignedFor site.hmac context request response) (Answer.device <$> handler) := by
    intro handler h
    apply ensures_map
    intro events response hreturns
    exact ⟨response, rfl, h events response hreturns⟩
  cases call with
  | publish _ topic _ ttl =>
      obtain ⟨rfl, rfl⟩ := Prod.mk.inj (Option.some.inj hcall)
      exact hdevice _ (publishMessage_signed topic ttl)
  | consume _ topic _ envelope fuel =>
      obtain ⟨rfl, rfl⟩ := Prod.mk.inj (Option.some.inj hcall)
      exact hdevice _ (consumeMessage_signed topic envelope fuel)
  | writeKv _ key _ =>
      obtain ⟨rfl, rfl⟩ := Prod.mk.inj (Option.some.inj hcall)
      exact hdevice _ (writeKv_signed site.gate key)
  | readKv _ key _ =>
      obtain ⟨rfl, rfl⟩ := Prod.mk.inj (Option.some.inj hcall)
      exact hdevice _ (readKv_signed key)
  | deleteKv _ key _ =>
      obtain ⟨rfl, rfl⟩ := Prod.mk.inj (Option.some.inj hcall)
      exact hdevice _ (deleteKv_signed key)
  | _ => cases hcall

section Verify

variable {hmac : Hmac} {jsonDepth : Nat} {w : World}

-- The three headers a device puts on a request, with the timestamp as the server reads it.
structure Presents (request : Request) (clientId : Text) (timestamp : Int) (signature : Text) :
    Prop where
  client : request.header? "x-client-id".toList = some clientId
  timestamp : ∃ text, requiredHeader request "x-timestamp".toList = .ok text ∧
    parseTimestamp text = .ok timestamp
  signature : request.header? "x-signature".toList = some signature

-- A digest under a registered client's secret is accepted on the requests it is the digest of.
theorem verified_iff {request : Request} {clientId secretHex : Text} {secret message : Bytes}
    {ts : Int} (hideal : IdealMac hmac) (hregistered : Registered clientId secretHex jsonDepth w)
    (hsecret : fromHex secretHex = some secret) (hfresh : verifyTimestamp w.clock ts = true)
    (hpresents : Presents request clientId ts (hexdigest (hmac secret message))) :
    (∃ context, (verifyDeviceRequest hmac jsonDepth request).runOn w = (.ok context, w)) ↔
      signingPayload request.path request.body ts = message := by
  obtain ⟨acl, hacl⟩ := hregistered.acl
  obtain ⟨text, htext, hparse⟩ := hpresents.timestamp
  have hne : hexdigest (hmac secret message) ≠ [] := by
    intro hnil
    exact hideal.nonempty _ _ (hexdigest_injective hnil)
  have hstored : secretOfRecord (w.store.get (clientSecretKey clientId)) = .ok secretHex := by
    rw [hregistered.secret, secretOfRecord_utf8 hregistered.secret_ne]
  have hrun := @verifyDeviceRequest_runOn hmac jsonDepth request w _ _ _ _ _ _
    (requiredHeader_of_ne hpresents.client hregistered.id_ne) htext
    (requiredHeader_of_ne hpresents.signature hne) hparse hfresh hstored hacl
  rw [← @verifySignature_hexdigest hmac secretHex secret message ts request.path request.body
    hideal hsecret, hrun]
  constructor
  · rintro ⟨context, hcontext⟩
    cases hv : verifiedContext hmac request clientId secretHex ts
        (hexdigest (hmac secret message)) with
    | error exn =>
        rw [hv] at hcontext
        cases congrArg Prod.fst hcontext
    | ok f => exact (verifiedContext_ok hv).1
  · intro hvalid
    obtain ⟨f, hf⟩ := @verifiedContext_of_valid hmac request clientId secretHex _ ts secret
      hsecret hvalid
    rw [hf]
    exact ⟨f acl, rfl⟩

end Verify

section Small

def markingSite : Site :=
  { Site.small with hmac := marking }

def keyRequest (method : Text) (headers : List (Text × Text)) (body : Bytes) : Request :=
  ⟨method, "/kv/k".toList, headers, body⟩

def World.holding : World :=
  { World.knowing with store := World.knowing.store.set (kvKey ['k']) [0xc0] }

theorem registered_holding : Registered ['c'] ['0', '0'] 8 World.holding where
  id_ne := by decide
  secret_ne := by decide
  secret := by
    refine (Store.get_set_of_ne _ (by decide) _).trans registered_knowing.secret
  acl := by
    obtain ⟨acl, hacl⟩ := registered_knowing.acl
    refine ⟨acl, ?_⟩
    rw [← hacl]
    exact congrArg (aclOfRecord 8) (Store.get_set_of_ne _ (by decide) _)

end Small

end Stra2us.Server
