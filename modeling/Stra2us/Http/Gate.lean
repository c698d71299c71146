import Stra2us.Foundation.Base64
import Stra2us.Foundation.Percent
import Stra2us.Http.Table
import Stra2us.Server.Dependencies
import Stra2us.Server.Sequential

namespace Stra2us.Http

open Foundation Server Routing

-- A request as the router sees it: the path is decoded, header names are in lower case.
structure HttpRequest where
  method : Text
  path : Text
  query : Text
  headers : List (Text × Text)
  cookies : List (Text × Text)
  body : Bytes

structure HttpResponse where
  status : Nat
  headers : List (Text × Text)
  body : Bytes
deriving DecidableEq, Repr

-- What a handler answers, and whether it says that a value was there.
structure Answer where
  response : HttpResponse
  kvHit : Option Bool
deriving DecidableEq, Repr

-- One deployment: its settings, the two checks of credentials, what the framework and the
-- library do for it, and the handlers behind their admin checks.
structure Application where
  jsonDepth : Nat
  rescueUsers : List Text
  browserHost : Text
  extraOrigins : List Text
  oauthEnabled : Bool
  policy : Text
  verifySessionToken : Int → Text → Option Text
  verifyPassword : Text → Text → Except Exn Bool
  urlPath : HttpRequest → Text
  urlQuery : HttpRequest → Text
  urlHostname : HttpRequest → Option Text
  hostOf : Text → Except Exn (Option Text)
  preflight : HttpRequest → Option HttpResponse
  cors : HttpRequest → HttpResponse → HttpResponse
  detailResponse : Nat → Text → HttpResponse
  withSession : Text → Int → HttpResponse → HttpResponse
  file : Endpoint → HttpRequest → HttpResponse
  malformed : Endpoint → HttpRequest → Option HttpResponse
  methodNotAllowed : HttpRequest → HttpResponse
  unmatched : HttpRequest → HttpResponse
  handle : Endpoint → HttpRequest → Text → World → Except Exn Answer × World
  appendLog : List (Text × Bytes) → World → World

section Paths

-- What `request.url` makes of a path: no tab and no line break, and an end at `?` or `#`.
def urlPathOf (path : Text) : Text :=
  (path.filter fun c => c ≠ '\t' ∧ c ≠ '\r' ∧ c ≠ '\n').takeWhile fun c => c ≠ '?' ∧ c ≠ '#'

def startsWith (path : Text) (pre : String) : Bool :=
  pre.toList.isPrefixOf path

def endsWith (path : Text) (post : String) : Bool :=
  post.toList.isSuffixOf path

def pathNeedsAdminAuth (path : Text) : Bool :=
  if startsWith path "/oauth/" then false
  else if path = "/admin/logout".toList then false
  else if startsWith path "/admin" || startsWith path "/api/admin" then true
  else if startsWith path "/app/_static/" then false
  else if decide ("/_assets/".toList <:+: path) && startsWith path "/app/" then false
  else if startsWith path "/app/" && endsWith path "/_theme.css" then false
  else if path = "/app".toList || path = "/app/".toList then true
  else if path = "/api/app/lookup_device".toList then true
  else if startsWith path "/api/app/" then false
  else if path = "/api/_csp_report".toList then false
  else if startsWith path "/app/" then true
  else false

end Paths

section Headers

def field? (fields : List (Text × Text)) (name : String) : Option Text :=
  (fields.find? fun field => field.1 = name.toList).map Prod.snd

variable (app : Application) (req : HttpRequest)

def browserFacingHost : Option Text :=
  match field? req.headers "x-forwarded-host" with
  | some (c :: rest) => some (strip ((c :: rest).takeWhile (· ≠ ',')))
  | _ => app.urlHostname req

def isBrowserHost : Bool :=
  browserFacingHost app req = some app.browserHost

-- Bare hosts stand for themselves, full origins for their host.
def extraHosts : List Text → Except Exn (List Text)
  | [] => .ok []
  | item :: rest => do
      let host ← if "://".toList <:+: item then app.hostOf item else .ok (some item)
      let others ← extraHosts rest
      match host with
      | some (c :: more) => .ok ((c :: more) :: others)
      | _ => .ok others

def csrfOriginOk : Except Exn Bool :=
  match field? req.headers "origin" with
  | some (c :: rest) => do
      let host ← app.hostOf (c :: rest)
      let extra ← extraHosts app app.extraOrigins
      match host with
      | some name => .ok (browserFacingHost app req = some name || name = app.browserHost ||
          decide (name ∈ extra))
      | none => .ok false
  | _ => .ok true

def stateChanging : List Text :=
  ["POST".toList, "PUT".toList, "PATCH".toList, "DELETE".toList]

-- `auth_header.split(" ")[1]`, decoded and cut at its first colon.
def basicCredentials (authHeader : Text) : Option (Text × Text) :=
  if startsWith authHeader "Basic " then
    match (Base64.decode ((authHeader.drop 6).takeWhile (· ≠ ' '))).bind utf8Decode with
    | some credentials =>
        if ':' ∈ credentials then
          some (credentials.takeWhile (· ≠ ':'), (credentials.dropWhile (· ≠ ':')).drop 1)
        else none
    | none => none
  else none

def quotePlus (text : Text) : Text :=
  (utf8 text).flatMap fun byte => if byte = 0x20 then ['+'] else Percent.quoteByte byte

end Headers

section Middleware

variable (app : Application) (req : HttpRequest)

-- No session: the browser is sent to log in, anything else is challenged.
def challenge : HttpResponse :=
  if isBrowserHost app req && app.oauthEnabled then
    let query := app.urlQuery req
    let target := app.urlPath req ++ if query = [] then [] else '?' :: query
    ⟨302, [("location".toList, "/oauth/google/login?next=".toList ++ quotePlus target)], []⟩
  else ⟨401, [("www-authenticate".toList, "Basic realm=\"Admin Area\"".toList)], []⟩

-- A handler that fails behind Basic credentials ends in the challenge too.
def basicAuth (next : Text → World → Except Exn Answer × World) (w : World) :
    Except Exn Answer × World :=
  let refused : Except Exn Answer := .ok ⟨challenge app req, none⟩
  match (field? req.headers "authorization").bind basicCredentials with
  | none => (refused, w)
  | some (username, password) =>
      match app.verifyPassword username password with
      | .ok true =>
          match next username w with
          | (.ok answer, w') =>
              (.ok { answer with response := app.withSession username w'.clock answer.response }, w')
          | (.error _, w') => (refused, w')
      | _ => (refused, w)

def sessionUser (w : World) : Option Text :=
  match field? req.cookies "admin_session" with
  | some (c :: rest) => app.verifySessionToken w.clock (c :: rest)
  | _ => none

-- The user is empty where nobody is logged in.
def adminAuth (next : Text → World → Except Exn Answer × World) (w : World) :
    Except Exn Answer × World :=
  if pathNeedsAdminAuth (app.urlPath req) then
    match if req.method ∈ stateChanging then csrfOriginOk app req else .ok true with
    | .error exn => (.error exn, w)
    | .ok false =>
        (.ok ⟨app.detailResponse 403 "cross-origin request rejected".toList, none⟩, w)
    | .ok true =>
        match sessionUser app req w with
        | some (c :: rest) => next (c :: rest) w
        | _ => basicAuth app req next w
  else next [] w

end Middleware

end Stra2us.Http
