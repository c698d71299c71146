import Stra2us.Foundation.Percent
import Stra2us.Server.Api
import Stra2us.Server.Sequential

namespace Stra2us.Server

open Foundation

-- A request as it comes over the connection; header names in lower case, as the
-- server looks them up.
structure HttpRequest where
  method : Text
  target : Bytes
  headers : List (Text × Text)
  body : Bytes

def HttpRequest.header? (r : HttpRequest) (name : Text) : Option Text :=
  (r.headers.find? fun header => header.1 = name).map Prod.snd

-- What the HTTP server and the web framework decide. `urlPath` is the path of the URL
-- the framework puts together again from the decoded path, which may lose what looks
-- like a query or a fragment in it. A parameter that is absent keeps its default.
structure HttpServer where
  replaced : Bytes → Text
  urlPath : Text → Text
  intParam : Text → Text → Except Exn (Option Int)
  boolParam : Text → Text → Except Exn (Option Bool)
  length_replaced : ∀ bytes, (replaced bytes).length ≤ bytes.length
  urlPath_prefix : ∀ path, urlPath path <+: path
  urlPath_plain : ∀ path, '?' ∉ path → '#' ∉ path → urlPath path = path
  intParam_absent : ∀ name, intParam [] name = .ok none
  boolParam_absent : ∀ name, boolParam [] name = .ok none

structure Scope where
  path : Text
  query : Text

namespace HttpServer

variable (server : HttpServer)

def isVisible (byte : UInt8) : Bool :=
  0x21 ≤ byte && byte ≤ 0x7e

-- A request line with anything but visible ASCII in it is refused.
def scope (r : HttpRequest) : Option Scope :=
  if r.target.all isVisible then
    let text := r.target.map fun byte => Char.ofNat byte.toNat
    some ⟨Percent.unquote server.replaced (text.takeWhile (· ≠ '?')),
      (text.dropWhile (· ≠ '?')).drop 1⟩
  else none

def request (r : HttpRequest) (scope : Scope) : Request :=
  ⟨r.method, server.urlPath scope.path, r.headers, r.body⟩

end HttpServer

-- What `{name:path}` takes of a path: a dot matches no line feed, and the end of the
-- pattern matches before a last one.
def pathParam (pre path : Text) : Option Text :=
  if pre <+: path then
    let rest := path.drop pre.length
    if '\n' ∉ rest then some rest
    else if rest.getLast? = some '\n' ∧ '\n' ∉ rest.dropLast then some rest.dropLast
    else none
  else none

inductive Route
  | publish (topic : Text)
  | consume (topic : Text)
  | writeKv (key : Text)
  | readKv (key : Text)
  | deleteKv (key : Text)
deriving DecidableEq, Repr

def route (method path : Text) : Option Route :=
  match pathParam "/q/".toList path, pathParam "/kv/".toList path with
  | some topic, _ =>
      if method = "POST".toList then some (.publish topic)
      else if method = "GET".toList then some (.consume topic)
      else none
  | none, some key =>
      if method = "POST".toList then some (.writeKv key)
      else if method = "GET".toList then some (.readKv key)
      else if method = "DELETE".toList then some (.deleteKv key)
      else none
  | none, none => none

-- The handler's call, with the query parameters it declares.
def Route.call (server : HttpServer) (fuel : Nat) (query : Text) (request : Request)
    (context : Context) : Route → Except Exn Call
  | .publish topic => do
      let ttl ← server.intParam query "ttl".toList
      .ok (.publish context topic request (ttl.getD 3600))
  | .consume topic => do
      let envelope ← server.boolParam query "envelope".toList
      .ok (.consume context topic request (envelope.getD false) fuel)
  | .writeKv key => .ok (.writeKv context key request)
  | .readKv key => .ok (.readKv context key request)
  | .deleteKv key => .ok (.deleteKv context key request)

section Accepts

variable (server : HttpServer) (hmac : Hmac) (jsonDepth : Nat)

-- The request passes verification as the client and goes to the route.
def Accepts (w : World) (r : HttpRequest) (clientId : Text) (target : Route) : Prop :=
  ∃ scope, server.scope r = some scope ∧ route r.method scope.path = some target ∧
    ∃ context, (verifyDeviceRequest hmac jsonDepth (server.request r scope)).runOn w =
      (.ok context, w) ∧ context.clientId = clientId

end Accepts

section Verify

variable {hmac : Hmac} {jsonDepth : Nat} {request : Request} {w : World}

-- Distinct messages have distinct digests under one key, and none is empty.
structure IdealMac (hmac : Hmac) : Prop where
  injective : ∀ secret, Function.Injective (hmac secret)
  nonempty : ∀ secret message, hmac secret message ≠ []

theorem hexDigit_lt {n : Nat} (h : n < 16) : (hexDigit n).toNat < 128 := by
  revert n
  decide

theorem hexdigest_ascii (bytes : Bytes) : (hexdigest bytes).all (·.toNat < 128) := by
  rw [List.all_eq_true]
  intro c hc
  obtain ⟨byte, -, hmem⟩ := List.mem_flatMap.mp hc
  have hb := byte.toNat_lt
  simp only [List.mem_cons, List.not_mem_nil, or_false] at hmem
  rcases hmem with rfl | rfl
  · simpa using hexDigit_lt (show byte.toNat / 16 < 16 by omega)
  · simpa using hexDigit_lt (show byte.toNat % 16 < 16 by omega)

-- All of what verification looks at, for a request that carries the three headers.
theorem verifyDeviceRequest_runOn {clientId timestampStr signature secretHex : Text}
    {timestamp : Int} {acl : Value}
    (hclient : requiredHeader request "x-client-id".toList = .ok clientId)
    (htimestamp : requiredHeader request "x-timestamp".toList = .ok timestampStr)
    (hsignature : requiredHeader request "x-signature".toList = .ok signature)
    (hparse : parseTimestamp timestampStr = .ok timestamp)
    (hfresh : verifyTimestamp w.clock timestamp = true)
    (hsecret : secretOfRecord (w.store.get (clientSecretKey clientId)) = .ok secretHex)
    (hacl : aclOfRecord jsonDepth (w.store.get (clientAclKey clientId)) = .ok acl) :
    (verifyDeviceRequest hmac jsonDepth request).runOn w =
      ((verifiedContext hmac request clientId secretHex timestamp signature).map (· acl), w) := by
  unfold verifyDeviceRequest
  rw [hclient, htimestamp, hsignature]
  simp only [Handler.runOn_ofExcept_ok_bind, hparse]
  change (if verifyTimestamp w.clock timestamp then _ else _ : Handler Context).runOn w = _
  rw [if_pos hfresh]
  change (Handler.ofExcept (secretOfRecord (w.store.get (clientSecretKey clientId))) >>= _).runOn w
    = _
  rw [hsecret]
  simp only [Handler.runOn_ofExcept_ok_bind]
  cases verifiedContext hmac request clientId secretHex timestamp signature with
  | error exn => rfl
  | ok context =>
      change (Handler.ofExcept (aclOfRecord jsonDepth (w.store.get (clientAclKey clientId)))
        >>= _).runOn w = _
      rw [hacl]
      rfl

theorem verifiedContext_ok {clientId secretHex signature : Text} {timestamp : Int}
    {context : Value → Context}
    (h : verifiedContext hmac request clientId secretHex timestamp signature = .ok context) :
    verifySignature hmac secretHex request.path request.body timestamp signature = .ok true ∧
      ∀ acl, (context acl).clientId = clientId ∧ (context acl).secretHex = secretHex ∧
        (context acl).acl = acl := by
  unfold verifiedContext at h
  split at h
  · cases h
  · cases hv : verifySignature hmac secretHex request.path request.body timestamp signature with
    | error exn =>
        rw [hv] at h
        cases h
    | ok valid =>
        rw [hv] at h
        cases valid with
        | false => cases h
        | true =>
            obtain rfl := Except.ok.inj h
            exact ⟨rfl, fun acl => ⟨rfl, rfl, rfl⟩⟩

theorem verifiedContext_of_valid {clientId secretHex signature : Text} {timestamp : Int}
    {secret : Bytes} (hsecret : fromHex secretHex = some secret)
    (h : verifySignature hmac secretHex request.path request.body timestamp signature = .ok true) :
    ∃ context, verifiedContext hmac request clientId secretHex timestamp signature =
      .ok context := by
  unfold verifiedContext
  split
  · rename_i hnone
    rw [hsecret] at hnone
    cases hnone
  · rw [h]
    exact ⟨_, rfl⟩

-- A digest passes exactly when it is that of the payload the server puts together.
theorem verifySignature_hexdigest {secretHex : Text} {secret message : Bytes} {timestamp : Int}
    {path : Text} {body : Bytes} (hideal : IdealMac hmac)
    (hsecret : fromHex secretHex = some secret) :
    verifySignature hmac secretHex path body timestamp (hexdigest (hmac secret message)) =
        .ok true ↔
      signingPayload path body timestamp = message := by
  have hcompare : verifySignature hmac secretHex path body timestamp
      (hexdigest (hmac secret message)) = .ok (decide (hexdigest (hmac secret
        (signingPayload path body timestamp)) = hexdigest (hmac secret message))) := by
    simp only [verifySignature, signPayload, calculateSignature, hsecret, bind, Except.bind,
      compareDigest, hexdigest_ascii, ite_true]
  rw [hcompare]
  simp only [Except.ok.injEq, decide_eq_true_eq]
  constructor
  · intro h
    exact hideal.injective secret (hexdigest_injective h)
  · intro h
    rw [h]

theorem signingPayload_inj {path path' : Text} {body : Bytes} {timestamp : Int} :
    signingPayload path body timestamp = signingPayload path' body timestamp ↔ path = path' := by
  simp [signingPayload]

theorem utf8_of_ascii {text : Text} (h : ∀ c ∈ text, c.toNat < 128) :
    utf8 text = text.map fun c => UInt8.ofNat c.toNat := by
  induction text with
  | nil => rfl
  | cons c rest ih =>
      rw [utf8_cons, Percent.utf8EncodeChar_of_lt (h c (by simp)),
        ih fun d hd => h d (List.mem_cons_of_mem _ hd)]
      rfl

-- The decoded path is no longer than the target.
theorem length_scope {server : HttpServer} {r : HttpRequest} {scope : Scope}
    (h : server.scope r = some scope) : scope.path.length ≤ r.target.length := by
  unfold HttpServer.scope at h
  split at h
  · next hvisible =>
      obtain rfl := Option.some.inj h
      let text := r.target.map fun byte => Char.ofNat byte.toNat
      have hascii : ∀ c ∈ text.takeWhile (· ≠ '?'), c.toNat < 128 := by
        intro c hc
        obtain ⟨byte, hbyte, rfl⟩ := List.mem_map.mp ((List.takeWhile_prefix _).subset hc)
        have hrange := List.all_eq_true.mp hvisible byte hbyte
        simp only [HttpServer.isVisible, Bool.and_eq_true, decide_eq_true_eq,
          UInt8.le_iff_toNat_le] at hrange
        have hle : byte.toNat ≤ 0x7e := hrange.2
        revert hle
        exact @Percent.byte_forall (fun byte => byte.toNat ≤ 0x7e →
          (Char.ofNat byte.toNat).toNat < 128) (by decide +kernel) byte
      have htaken : (text.takeWhile (· ≠ '?')).length ≤ r.target.length :=
        ((List.takeWhile_prefix _).length_le).trans (List.length_map _).le
      exact (Percent.length_unquote server.length_replaced hascii).trans htaken
  · cases h

-- A visible target is cut at the first question mark and decoded in front of it.
theorem scope_of_visible (server : HttpServer) {r : HttpRequest} {text : Text}
    (htarget : r.target = utf8 text) (hvisible : ∀ c ∈ text, 0x21 ≤ c.toNat ∧ c.toNat ≤ 0x7e) :
    server.scope r = some ⟨Percent.unquote server.replaced (text.takeWhile (· ≠ '?')),
      (text.dropWhile (· ≠ '?')).drop 1⟩ := by
  have hbyte : ∀ c ∈ text, (UInt8.ofNat c.toNat).toNat = c.toNat := by
    intro c hc
    have := hvisible c hc
    rw [UInt8.toNat_ofNat']
    omega
  have hascii : r.target = text.map fun c => UInt8.ofNat c.toNat := by
    rw [htarget]
    apply utf8_of_ascii
    intro c hc
    have := hvisible c hc
    omega
  have hall : r.target.all HttpServer.isVisible := by
    rw [hascii, List.all_eq_true]
    intro byte hb
    obtain ⟨c, hc, rfl⟩ := List.mem_map.mp hb
    have hrange := hvisible c hc
    simp only [HttpServer.isVisible, Bool.and_eq_true, decide_eq_true_eq, UInt8.le_iff_toNat_le,
      hbyte c hc]
    exact hrange
  have hback : (r.target.map fun byte => Char.ofNat byte.toNat) = text := by
    rw [hascii, List.map_map]
    calc
      _ = text.map id := by
        apply List.map_congr_left
        intro c hc
        simp only [Function.comp_apply, hbyte c hc, Char.ofNat_toNat, id]
      _ = text := List.map_id _
  simp only [HttpServer.scope, hall, ite_true, hback]

-- The server knows the client under this secret.
structure Registered (clientId secretHex : Text) (jsonDepth : Nat) (w : World) : Prop where
  id_ne : clientId ≠ []
  secret_ne : secretHex ≠ []
  secret : w.store.get (clientSecretKey clientId) = some (utf8 secretHex)
  acl : ∃ acl, aclOfRecord jsonDepth (w.store.get (clientAclKey clientId)) = .ok acl

-- The request carries the client's signature over this URI, its body and the time.
structure Signs (hmac : Hmac) (r : HttpRequest) (clientId secretHex uri : Text) (ts : Int) :
    Prop where
  client : r.header? "x-client-id".toList = some clientId
  timestamp : r.header? "x-timestamp".toList = some (intText ts)
  signature : ∃ secret, fromHex secretHex = some secret ∧ r.header? "x-signature".toList =
    some (hexdigest (hmac secret (signingPayload uri r.body ts)))
  digits : (natText ts.natAbs).length ≤ maxIntDigits

theorem requiredHeader_of_ne {name value : Text} (h : request.header? name = some value)
    (hne : value ≠ []) : requiredHeader request name = .ok value := by
  obtain ⟨c, rest, rfl⟩ := List.exists_cons_of_ne_nil hne
  simp [requiredHeader, h]

theorem utf8_ne_nil {text : Text} (h : text ≠ []) : utf8 text ≠ [] := by
  intro hnil
  exact h (utf8_injective hnil)

theorem secretOfRecord_utf8 {secretHex : Text} (h : secretHex ≠ []) :
    secretOfRecord (some (utf8 secretHex)) = .ok secretHex := by
  have hdecode := utf8Decode_utf8 secretHex
  obtain ⟨byte, rest, hbytes⟩ := List.exists_cons_of_ne_nil (utf8_ne_nil h)
  rw [hbytes] at hdecode ⊢
  simp [secretOfRecord, hdecode]

theorem intText_ne_nil (n : Int) : intText n ≠ [] := by
  cases n with
  | ofNat m => exact natText_ne_nil m
  | negSucc m => simp [intText]

-- A registered client's request is accepted exactly when the path the server sees is
-- the URI the client signed.
theorem accepts_iff {server : HttpServer} {r : HttpRequest} {scope : Scope} {target : Route}
    {clientId secretHex uri : Text} {ts : Int} (hideal : IdealMac hmac)
    (hregistered : Registered clientId secretHex jsonDepth w)
    (hfresh : verifyTimestamp w.clock ts = true)
    (hsigns : Signs hmac r clientId secretHex uri ts) (hscope : server.scope r = some scope) :
    Accepts server hmac jsonDepth w r clientId target ↔
      route r.method scope.path = some target ∧ server.urlPath scope.path = uri := by
  obtain ⟨acl, hacl⟩ := hregistered.acl
  obtain ⟨secret, hhex, hsignature⟩ := hsigns.signature
  have hne : hexdigest (hmac secret (signingPayload uri r.body ts)) ≠ [] := by
    intro hnil
    exact hideal.nonempty _ _ (hexdigest_injective hnil)
  have hparse : parseTimestamp (intText ts) = .ok ts := by
    simp [parseTimestamp, parseInt_intText ts hsigns.digits]
  have hstored : secretOfRecord (w.store.get (clientSecretKey clientId)) = .ok secretHex := by
    rw [hregistered.secret, secretOfRecord_utf8 hregistered.secret_ne]
  have hrun : (verifyDeviceRequest hmac jsonDepth (server.request r scope)).runOn w = _ :=
    verifyDeviceRequest_runOn (requiredHeader_of_ne hsigns.client hregistered.id_ne)
      (requiredHeader_of_ne hsigns.timestamp (intText_ne_nil ts))
      (requiredHeader_of_ne hsignature hne) hparse hfresh hstored hacl
  have hvalid : verifySignature hmac secretHex (server.urlPath scope.path) r.body ts
      (hexdigest (hmac secret (signingPayload uri r.body ts))) = .ok true ↔
        server.urlPath scope.path = uri := by
    rw [verifySignature_hexdigest hideal hhex, signingPayload_inj]
  constructor
  · rintro ⟨scope', hscope', hroute, context, hcontext, -⟩
    rw [hscope] at hscope'
    obtain rfl := Option.some.inj hscope'
    refine ⟨hroute, hvalid.mp ?_⟩
    rw [hrun] at hcontext
    cases hv : verifiedContext hmac (server.request r scope) clientId secretHex ts
        (hexdigest (hmac secret (signingPayload uri r.body ts))) with
    | error exn =>
        rw [hv] at hcontext
        cases congrArg Prod.fst hcontext
    | ok f => exact (verifiedContext_ok hv).1
  · rintro ⟨hroute, hpath⟩
    have hv : verifySignature hmac secretHex (server.request r scope).path
        (server.request r scope).body ts
          (hexdigest (hmac secret (signingPayload uri r.body ts))) = .ok true := hvalid.mpr hpath
    obtain ⟨f, hf⟩ := verifiedContext_of_valid hhex hv
    refine ⟨scope, hscope, hroute, f acl, ?_, ((verifiedContext_ok hf).2 acl).1⟩
    rw [hrun, hf]
    rfl

end Verify

section Small

-- The last pair of that name counts.
def queryValue (query name : Text) : Option Text :=
  (((query.splitOn '&').filter fun pair => (name ++ ['=']).isPrefixOf pair).getLast?).map
    fun pair => pair.drop (name.length + 1)

-- A server that neither decodes the query nor cuts the path further than it has to.
def HttpServer.standard : HttpServer where
  replaced bytes := List.replicate bytes.length '\ufffd'
  urlPath path := path.takeWhile fun c => c ≠ '?' && c ≠ '#'
  intParam query name :=
    match queryValue query name with
    | none => .ok none
    | some text =>
        match parseInt text with
        | some n => .ok (some n)
        | none => .error (.http 422 "Unprocessable Entity".toList)
  boolParam query name :=
    match queryValue query name with
    | none => .ok none
    | some text =>
        if text = "true".toList ∨ text = "1".toList then .ok (some true)
        else if text = "false".toList ∨ text = "0".toList then .ok (some false)
        else .error (.http 422 "Unprocessable Entity".toList)
  length_replaced bytes := by simp
  urlPath_prefix path := List.takeWhile_prefix _
  urlPath_plain path hquery hfragment := by
    rw [List.takeWhile_eq_self_iff]
    intro c hc
    have hne : c ≠ '?' := fun h => hquery (h ▸ hc)
    have hne' : c ≠ '#' := fun h => hfragment (h ▸ hc)
    simp [hne, hne']
  intParam_absent name := by simp [queryValue]
  boolParam_absent name := by simp [queryValue]

-- A digest that shows the message it was made from.
def marking : Hmac := fun _ message => 0 :: message

theorem idealMac_marking : IdealMac marking where
  injective := fun _ _ _ h => (List.cons.inj h).2
  nonempty := fun _ _ => List.cons_ne_nil _ _

-- A store with one client in it.
def World.knowing : World :=
  ⟨Store.empty.set (clientSecretKey ['c']) (utf8 ['0', '0']), 100, 7⟩

theorem registered_knowing : Registered ['c'] ['0', '0'] 8 World.knowing where
  id_ne := by decide
  secret_ne := by decide
  secret := Store.get_set_self _ _ _
  acl := by
    refine ⟨defaultAcl, ?_⟩
    change aclOfRecord 8 ((Store.empty.set _ _).get (clientAclKey ['c'])) = _
    rw [Store.get_set_of_ne _ (by decide)]
    rfl

end Small

end Stra2us.Server
