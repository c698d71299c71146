import Stra2us.Http.Gate
import Stra2us.Server.Uses

namespace Stra2us.Http

open Foundation Server Routing

section Stack

variable (app : Application) (req : HttpRequest)

-- The router, with what the framework makes of an HTTPException.
def answerHttp (outcome : Except Exn Answer × World) : Except Exn Answer × World :=
  match outcome with
  | (.error (.http status detail), w) => (.ok ⟨app.detailResponse status detail, none⟩, w)
  | _ => outcome

-- A malformed request is turned away before the handler and its dependencies see it.
def runEndpoint (e : Endpoint) (user : Text) (w : World) : Except Exn Answer × World :=
  if e.isStatic then (.ok ⟨app.file e req, none⟩, w)
  else
    match app.malformed e req with
    | some response => (.ok ⟨response, none⟩, w)
    | none =>
        if e.wantsAdmin then
          match (getAdminContext app.jsonDepth app.rescueUsers user).runOn w with
          | (.ok _, w') => app.handle e req user w'
          | (.error exn, w') => (.error exn, w')
        else app.handle e req user w

def router (user : Text) (w : World) : Except Exn Answer × World :=
  match dispatch table req.method req.path with
  | .handled e => answerHttp app (runEndpoint app req e user w)
  | .methodNotAllowed => (.ok ⟨app.methodNotAllowed req, none⟩, w)
  | .unmatched => (.ok ⟨app.unmatched req, none⟩, w)

def activityLogStream : Text := "system:activity_log".toList

def isDevicePath (path : Text) : Bool :=
  startsWith path "/q/" || startsWith path "/kv/"

def disconnected : Exn := .python "ClientDisconnect".toList

def exnName : Exn → Text
  | .http _ _ => "HTTPException".toList
  | .python name => name
  | .outOfFuel => "RecursionError".toList

def logStatus (path : Text) : Except Exn Answer → Text
  | .error exn =>
      if exn = disconnected then "Client disconnect (499)".toList
      else "Error (500) [".toList ++ exnName exn ++ [']']
  | .ok answer =>
      let status := answer.response.status
      let code := '(' :: (natText status ++ [')'])
      let fine : Bool := decide (200 ≤ status ∧ status < 300)
      match fine && decide (req.method = "GET".toList) && startsWith path "/kv/", answer.kvHit with
      | true, some hit => if hit then "Hit (200)".toList else "Miss (200)".toList
      | _, _ =>
          if fine then "Success ".toList ++ code
          else if status = 499 then "Client disconnect ".toList ++ code
          else "Error ".toList ++ code

def logFields (path : Text) (clock : Int) (result : Except Exn Answer) : List (Text × Bytes) :=
  [("timestamp".toList, utf8 (intText clock)),
    ("client_id".toList, utf8 ((field? req.headers "x-client-id").getD "unknown".toList)),
    ("action".toList, utf8 (req.method ++ ' ' :: path)),
    ("status".toList, utf8 (logStatus req path result))]

def activityLog (outcome : Except Exn Answer × World) : Except Exn Answer × World :=
  let path := app.urlPath req
  if isDevicePath path then
    (outcome.1, app.appendLog (logFields req path outcome.2.clock outcome.1) outcome.2)
  else outcome

def setHeader (name value : Text) (response : HttpResponse) : HttpResponse :=
  { response with headers := response.headers.filter (fun h => h.1 ≠ name) ++ [(name, value)] }

def cacheControl (response : HttpResponse) : HttpResponse :=
  if startsWith (app.urlPath req) "/admin/" then
    setHeader "cache-control".toList "no-cache".toList response
  else response

def contentPolicy (response : HttpResponse) : HttpResponse :=
  setHeader "reporting-endpoints".toList "csp-endpoint=\"/api/_csp_report\"".toList
    (setHeader "content-security-policy".toList app.policy response)

-- The middlewares from the outside in. The one that times requests is left out.
def respond (w : World) : Except Exn HttpResponse × World :=
  match app.preflight req with
  | some response => (.ok (contentPolicy app response), w)
  | none =>
      let outcome := activityLog app req (adminAuth app req (router app req) w)
      (outcome.1.map fun answer =>
        contentPolicy app (app.cors req (cacheControl app req answer.response)), outcome.2)

end Stack

section Unauthenticated

variable {app : Application} {req : HttpRequest} {w v : World}

-- Neither a session nor a password.
structure Unauthenticated (app : Application) (req : HttpRequest) (clock : Int) : Prop where
  session : ∀ token, field? req.cookies "admin_session" = some token →
    app.verifySessionToken clock token = none
  password : ∀ username password,
    (field? req.headers "authorization").bind basicCredentials = some (username, password) →
      app.verifyPassword username password ≠ .ok true

theorem basicAuth_unauthenticated (h : Unauthenticated app req w.clock)
    (next : Text → World → Except Exn Answer × World) :
    basicAuth app req next w = (.ok ⟨challenge app req, none⟩, w) := by
  unfold basicAuth
  cases hcredentials : (field? req.headers "authorization").bind basicCredentials with
  | none => rfl
  | some credentials =>
      obtain ⟨username, password⟩ := credentials
      have hrefused := h.password username password hcredentials
      dsimp only
      cases hverify : app.verifyPassword username password with
      | error exn => rfl
      | ok accepted =>
          cases accepted with
          | false => rfl
          | true => exact absurd hverify hrefused

theorem sessionUser_unauthenticated (h : Unauthenticated app req w.clock) :
    sessionUser app req w = none := by
  unfold sessionUser
  cases hcookie : field? req.cookies "admin_session" with
  | none => rfl
  | some token =>
      cases token with
      | nil => rfl
      | cons c rest => exact h.session (c :: rest) hcookie

-- What the gate answers to who is not logged in.
def gateAnswer (app : Application) (req : HttpRequest) : Except Exn Answer :=
  match if req.method ∈ stateChanging then csrfOriginOk app req else .ok true with
  | .error exn => .error exn
  | .ok false => .ok ⟨app.detailResponse 403 "cross-origin request rejected".toList, none⟩
  | .ok true => .ok ⟨challenge app req, none⟩

theorem adminAuth_unauthenticated (h : Unauthenticated app req w.clock)
    (next : Text → World → Except Exn Answer × World) :
    adminAuth app req next w =
      if pathNeedsAdminAuth (app.urlPath req) then (gateAnswer app req, w) else next [] w := by
  unfold adminAuth gateAnswer
  by_cases hgated : pathNeedsAdminAuth (app.urlPath req) = true
  · rw [if_pos hgated, if_pos hgated]
    cases hcsrf : if req.method ∈ stateChanging then csrfOriginOk app req else .ok true with
    | error exn => rfl
    | ok allowed =>
        cases allowed with
        | false => rfl
        | true =>
            rw [sessionUser_unauthenticated h]
            exact basicAuth_unauthenticated h next
  · rw [if_neg hgated, if_neg hgated]

theorem getAdminContext_nobody (w : World) :
    (getAdminContext app.jsonDepth app.rescueUsers []).runOn w =
      (.error (.http 401 "Admin session required".toList), w) := rfl

-- What the routes answer to nobody.
def nobodyAnswer (app : Application) (req : HttpRequest) : Answer :=
  match dispatch table req.method req.path with
  | .handled e =>
      if e.isStatic then ⟨app.file e req, none⟩
      else
        match app.malformed e req with
        | some response => ⟨response, none⟩
        | none => ⟨app.detailResponse 401 "Admin session required".toList, none⟩
  | .methodNotAllowed => ⟨app.methodNotAllowed req, none⟩
  | .unmatched => ⟨app.unmatched req, none⟩

theorem router_nobody
    (hkind : ∀ e, dispatch table req.method req.path = .handled e →
      e.isStatic = true ∨ e.wantsAdmin = true) (w : World) :
    router app req [] w = (.ok (nobodyAnswer app req), w) := by
  unfold router nobodyAnswer
  cases hdispatch : dispatch table req.method req.path with
  | methodNotAllowed => rfl
  | unmatched => rfl
  | handled e =>
      have hkind := hkind e hdispatch
      dsimp only [runEndpoint]
      by_cases hstatic : e.isStatic = true
      · rw [if_pos hstatic, if_pos hstatic]
        rfl
      · have hadmin : e.wantsAdmin = true := hkind.resolve_left hstatic
        rw [if_neg hstatic, if_neg hstatic, if_pos hadmin, getAdminContext_nobody]
        cases hmalformed : app.malformed e req with
        | some response => rfl
        | none => rfl

-- The one handler that asks for nothing is behind the gate.
theorem gated_of_lookupDevice
    (hurl : ∀ tail, req.path = '/' :: tail → app.urlPath req = urlPathOf req.path)
    (h : dispatch table req.method req.path = .handled .lookupDevice) :
    pathNeedsAdminAuth (app.urlPath req) = true := by
  have hgated : pathNeedsAdminAuth "/api/app/lookup_device".toList = true := by decide +kernel
  cases path_of_lookupDevice h with
  | inl hplain =>
      have hpath : app.urlPath req = "/api/app/lookup_device".toList := by
        rw [hurl _ hplain, hplain]
        decide +kernel
      rw [hpath, hgated]
  | inr hbreak =>
      have hpath : app.urlPath req = "/api/app/lookup_device".toList := by
        rw [hurl _ hbreak, hbreak]
        decide +kernel
      rw [hpath, hgated]

def refusal (app : Application) (req : HttpRequest) : Except Exn Answer :=
  if pathNeedsAdminAuth (app.urlPath req) then gateAnswer app req
  else .ok (nobodyAnswer app req)

-- Either the gate or the handler itself refuses, whatever the store.
theorem adminAuth_refuses (h : Unauthenticated app req w.clock)
    (hurl : ∀ tail, req.path = '/' :: tail → app.urlPath req = urlPathOf req.path)
    (hprivate : ∀ e, dispatch table req.method req.path = .handled e → e.isPublic = false) :
    adminAuth app req (router app req) w = (refusal app req, w) := by
  rw [adminAuth_unauthenticated h]
  unfold refusal
  by_cases hgated : pathNeedsAdminAuth (app.urlPath req) = true
  · rw [if_pos hgated, if_pos hgated]
  · rw [if_neg hgated, if_neg hgated]
    apply router_nobody
    intro e he
    obtain hpublic | hstatic | hadmin | hlookup := kind_cases e
    · rw [hprivate e he] at hpublic
      cases hpublic
    · exact .inl hstatic
    · exact .inr hadmin
    · subst hlookup
      exact absurd (gated_of_lookupDevice hurl he) hgated

-- What a request leaves behind, if anything: its entry in the activity log.
def withEntry (app : Application) (entry : Option (List (Text × Bytes))) (w : World) : World :=
  match entry with
  | some fields => app.appendLog fields w
  | none => w

theorem withEntry_agree
    (hlog : ∀ fields w, Agree (· ≠ activityLogStream) (app.appendLog fields w) w)
    (entry : Option (List (Text × Bytes))) (w : World) :
    Agree (· ≠ activityLogStream) (withEntry app entry w) w := by
  cases entry with
  | some fields => exact hlog fields w
  | none => exact Agree.refl _ w

def refusedResponse (app : Application) (req : HttpRequest) : Except Exn HttpResponse :=
  match app.preflight req with
  | some response => .ok (contentPolicy app response)
  | none => (refusal app req).map fun answer =>
      contentPolicy app (app.cors req (cacheControl app req answer.response))

def refusedEntry (app : Application) (req : HttpRequest) (clock : Int) :
    Option (List (Text × Bytes)) :=
  if (app.preflight req).isNone && isDevicePath (app.urlPath req) then
    some (logFields req (app.urlPath req) clock (refusal app req))
  else none

theorem respond_refuses (h : Unauthenticated app req w.clock)
    (hurl : ∀ tail, req.path = '/' :: tail → app.urlPath req = urlPathOf req.path)
    (hprivate : ∀ e, dispatch table req.method req.path = .handled e → e.isPublic = false) :
    respond app req w =
      (refusedResponse app req, withEntry app (refusedEntry app req w.clock) w) := by
  unfold respond refusedResponse refusedEntry
  cases hpreflight : app.preflight req with
  | some response => rfl
  | none =>
      dsimp only
      rw [adminAuth_refuses h hurl hprivate]
      unfold activityLog
      by_cases hdevice : isDevicePath (app.urlPath req) = true
      · simp [hdevice, withEntry]
      · simp [hdevice, withEntry]

end Unauthenticated

section Deployment

def bare (status : Nat) : HttpResponse := ⟨status, [], []⟩

-- A deployment whose handlers all answer with the index entry of the queried name.
def deployment : Application where
  jsonDepth := 100
  rescueUsers := []
  browserHost := "stra2us".toList
  extraOrigins := []
  oauthEnabled := false
  policy := "default-src 'self'".toList
  verifySessionToken := fun _ _ => none
  verifyPassword := fun _ _ => .ok false
  urlPath := fun req => urlPathOf req.path
  urlQuery := fun req => req.query
  urlHostname := fun _ => some "stra2us".toList
  hostOf := fun _ => .ok none
  preflight := fun _ => none
  cors := fun _ response => response
  detailResponse := fun status detail => ⟨status, [], utf8 detail⟩
  withSession := fun _ _ response => response
  file := fun _ _ => bare 200
  malformed := fun _ _ => none
  methodNotAllowed := fun _ => bare 405
  unmatched := fun _ => bare 404
  handle := fun _ req _ w =>
    let key := "device_to_app:".toList ++ req.query.drop "name=".toList.length
    (.ok ⟨⟨200, [], (w.store.get key).getD []⟩, none⟩, w)
  appendLog := fun fields w =>
    { w with store := (w.store.xadd w.redisMs.toNat activityLogStream fields).2 }

def stranger (method path query : Text) : HttpRequest :=
  ⟨method, path, query, [], [], []⟩

def lookupRequest : HttpRequest :=
  stranger "GET".toList "/api/app/lookup_device".toList "name=kitchen".toList

def putRequest : HttpRequest :=
  stranger "PUT".toList "/q/kitchen".toList []

theorem deployment_logs (fields : List (Text × Bytes)) (w : World) :
    Agree (· ≠ activityLogStream) (deployment.appendLog fields w) w where
  get := fun key _ => rfl
  stream := fun key hk => by
    simp only [deployment, Store.xadd]
    exact Store.stream?_setStream_of_ne _ hk _
  clock := rfl
  redisMs := rfl

theorem stranger_unauthenticated (app : Application) (method path query : Text) (clock : Int) :
    Unauthenticated app (stranger method path query) clock where
  session := fun token h => by cases h
  password := fun username password h => by cases h

end Deployment

end Stra2us.Http
