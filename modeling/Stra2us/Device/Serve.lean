import Stra2us.Admin.Operation
import Stra2us.Device.Handlers
import Stra2us.Device.Verify

namespace Stra2us.Device

open Foundation Server

-- A request at a device's endpoint, from its coming in to its answer. What goes to no such
-- endpoint is not found.
def serve (server : HttpServer) (site : Site) (fuel : Nat) (r : HttpRequest) : Handler Answer :=
  match server.scope r with
  | none => throw (.http 400 "Invalid HTTP request received.".toList)
  | some scope =>
      match route r.method scope.path with
      | none => throw (.http 404 "Not Found".toList)
      | some target => do
          let request := server.request r scope
          let context ← verifyDeviceRequest site.hmac site.jsonDepth request
          let call ← Handler.ofExcept (target.call server fuel scope.query request context)
          call.handler site

-- What is answered has been routed, verified and called.
theorem serve_ok {server : HttpServer} {site : Site} {fuel : Nat} {r : HttpRequest} {w w' : World}
    {answer : Answer} (h : (serve server site fuel r).runOn w = (.ok answer, w')) :
    ∃ scope target context call, server.scope r = some scope ∧
      route r.method scope.path = some target ∧
      (verifyDeviceRequest site.hmac site.jsonDepth (server.request r scope)).runOn w =
        (.ok context, w) ∧
      target.call server fuel scope.query (server.request r scope) context = .ok call ∧
      (call.handler site).runOn w = (.ok answer, w') := by
  unfold serve at h
  cases hscope : server.scope r with
  | none =>
      rw [hscope] at h
      cases h
  | some scope =>
      rw [hscope] at h
      dsimp only at h
      cases hroute : route r.method scope.path with
      | none =>
          rw [hroute] at h
          cases h
      | some target =>
          rw [hroute] at h
          dsimp only at h
          rw [Handler.runOn_bind_ok] at h
          obtain ⟨context, w₁, hverify, h⟩ := h
          obtain ⟨rfl, -⟩ := verified_of_runOn hverify
          cases hcall : target.call server fuel scope.query (server.request r scope) context with
          | error exn =>
              rw [hcall] at h
              cases h
          | ok call =>
              rw [hcall] at h
              exact ⟨scope, target, context, call, rfl, hroute, hverify, hcall, h⟩

-- A parameter that is no number, or no truth value, is the client's error.
structure Validates (server : HttpServer) : Prop where
  intParam : ∀ query name exn, server.intParam query name = .error exn →
    ∃ detail, exn = .http 422 detail
  boolParam : ∀ query name exn, server.boolParam query name = .error exn →
    ∃ detail, exn = .http 422 detail

section Serve

variable (server : HttpServer) (site : Site)

def RouteFits (query : Text) (request : Request) (context : Context) (w : World) : Route → Prop
  | .publish topic => ∀ ttl, server.intParam query "ttl".toList = .ok ttl →
      PublishFits context topic request (ttl.getD 3600) w
  | .consume topic => ∀ envelope, server.boolParam query "envelope".toList = .ok envelope →
      ConsumeFits context topic (envelope.getD false) w
  | .writeKv key => WriteFits site.gate context key request
  | .readKv key => ReadFits context key w
  | .deleteKv key => Checkable context.acl ("kv/".toList ++ key)

-- What a request, and the records it is about, must be like.
def Fits (r : HttpRequest) (w : World) : Prop :=
  ∀ scope target, server.scope r = some scope → route r.method scope.path = some target →
    VerifyFits site.hmac site.jsonDepth (server.request r scope) w ∧
      ∀ context, Verified site.hmac site.jsonDepth (server.request r scope) w context →
        RouteFits server site scope.query (server.request r scope) context w target

variable {server site} {query : Text} {request : Request} {context : Context} {w : World}
  {fuel : Nat}

theorem graceful_param {α : Type} {param : Except Exn α}
    (h : ∀ exn, param = .error exn → ∃ detail, exn = .http 422 detail) : Graceful param := by
  cases hparam : param with
  | ok value => trivial
  | error exn =>
      obtain ⟨detail, rfl⟩ := h exn hparam
      exact show 400 ≤ 422 ∧ 422 < 500 by omega

theorem graceful_call (hserver : Validates server)
    (hdigest : ∀ key message, (site.hmac key message).length = 32)
    (hfuel : ∀ topic, (w.store.stream (queueKey topic)).entries.length < fuel) (target : Route) :
    Graceful ((Handler.ofExcept (target.call server fuel query request context) >>= fun call =>
      call.handler site).runOn w).1 ↔ RouteFits server site query request context w target := by
  cases target with
  | publish topic =>
      have hparam := graceful_param (hserver.intParam query "ttl".toList)
      unfold Route.call RouteFits
      cases httl : server.intParam query "ttl".toList with
      | error exn =>
          rw [httl] at hparam
          exact iff_of_true ((graceful_error exn).mp hparam) fun _ h => nomatch h
      | ok ttl =>
          simp only [Except.ok.injEq, forall_eq']
          exact (graceful_runOn_map _ _).trans graceful_publish
  | consume topic =>
      have hparam := graceful_param (hserver.boolParam query "envelope".toList)
      unfold Route.call RouteFits
      cases henvelope : server.boolParam query "envelope".toList with
      | error exn =>
          rw [henvelope] at hparam
          exact iff_of_true ((graceful_error exn).mp hparam) fun _ h => nomatch h
      | ok envelope =>
          simp only [Except.ok.injEq, forall_eq']
          exact (graceful_runOn_map _ _).trans (graceful_consume (hfuel topic))
  | writeKv key => exact (graceful_runOn_map _ _).trans graceful_write
  | readKv key => exact (graceful_runOn_map _ _).trans (graceful_read hdigest)
  | deleteKv key => exact (graceful_runOn_map _ _).trans graceful_delete

end Serve

section Small

-- A digest that is the same for all messages, of the length that a digest has.
def constant : Hmac := fun _ _ => List.replicate 32 0

def constantDeployment : Admin.Deployment :=
  { Admin.Deployment.small with
    site := { Site.small with hmac := constant, rescueUsers := [['r']] } }

-- The store once an admin has made a client.
def withClient : World :=
  after (Admin.Operation.apply constantDeployment)
    [.call (.createClient ['r'] ['c'] ['0', '0'])] Admin.World.empty

def readOf (signature : Text) : HttpRequest where
  method := "GET".toList
  target := utf8 "/kv/k".toList
  headers := [("x-client-id".toList, ['c']), ("x-timestamp".toList, ['0']),
    ("x-signature".toList, signature)]
  body := []

theorem validates_standard : Validates HttpServer.standard where
  intParam := by
    intro query name exn h
    unfold HttpServer.standard at h
    dsimp only at h
    split at h
    · cases h
    · split at h
      · cases h
      · exact ⟨_, (Except.error.inj h).symm⟩
  boolParam := by
    intro query name exn h
    unfold HttpServer.standard at h
    dsimp only at h
    split at h
    · cases h
    · split_ifs at h
      · exact ⟨_, (Except.error.inj h).symm⟩

theorem knowing_get {key : Text} (h : key ≠ clientSecretKey ['c']) :
    World.knowing.store.get key = none :=
  Store.get_set_of_ne _ h _

theorem claims_readOf {signature claimed : Text} {clientId : Text} {timestamp : Int} {scope : Scope}
    (h : Claims (HttpServer.standard.request (readOf signature) scope) clientId timestamp claimed) :
    clientId = ['c'] ∧ (claimed = signature ∨ signature = []) := by
  constructor
  · exact (Except.ok.inj h.client).symm
  · cases signature with
    | nil => exact .inr rfl
    | cons c rest => exact .inl (Except.ok.inj h.signature).symm

end Small

end Stra2us.Device
