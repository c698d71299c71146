import Stra2us.Admin.AdminAuth
import Stra2us.Foundation.Url
import Stra2us.Http.Gate

namespace Stra2us.OAuth

open Foundation Server

-- What `set_cookie` is told, but for the flag that scripts may not read it.
structure Cookie where
  key : Text
  value : Text
  maxAge : Nat
  secure : Bool
  samesite : Text
  path : Text
deriving DecidableEq

-- What the pages say; their markup is left out.
inductive Page
  | unauthorized (email : Text)
  | problem (title detail : Text)
deriving DecidableEq

structure Reply where
  status : Nat
  location : Option Text
  page : Option Page
  cookies : List Cookie
  deleted : List Text
deriving DecidableEq

structure Claims where
  iss : Option Text
  email : Option Text
  emailVerified : Bool

-- An `OAuthError` with its text, or any other exception.
inductive Failure
  | oauth (detail : Text)
  | other (exn : Exn)

-- One deployment: its environment, the libraries that talk to Google, and what it signs with.
structure Site where
  enabled : Bool
  clientId : Option Text
  redirectUri : Option Text
  cookieSecure : Bool
  exchangeCodeForIdToken : Text → Except Failure Text
  verifyOauth2Token : Text → Except Text Claims
  interpreter : Interpreter
  hmac : Hmac
  sessionSecret : Bytes

-- A request to the callback: two parameters and two cookies.
structure CallbackRequest where
  code : Text
  state : Text
  oauthState : Option Text
  oauthRedirectTo : Option Text

section Helpers

variable (site : Site)

def cookiePath : Text := "/".toList

def cookieOauthState : Text := "oauth_state".toList

def cookieOauthRedirectTo : Text := "oauth_redirect_to".toList

def oauthTempCookieTtlSeconds : Nat := 600

def setCookie (key value : Text) (maxAge : Nat) : Cookie :=
  ⟨key, value, maxAge, site.cookieSecure, "lax".toList, cookiePath⟩

def requiredEnv : Option Text → Except Exn Text
  | some (c :: rest) => .ok (c :: rest)
  | _ => .error (.python "RuntimeError".toList)

-- The comparison refuses text that is not ASCII.
def verifyStateToken (received : Text) (stored : Option Text) : Except Exn Bool :=
  match received, stored with
  | _ :: _, some (c :: rest) =>
      if (received ++ c :: rest).all fun d => decide (d.toNat < 128) then
        .ok (decide (received = c :: rest))
      else .error (.python "TypeError".toList)
  | _, _ => .ok false

def googleAuthorizeUrl : Text := "https://accounts.google.com/o/oauth2/v2/auth".toList

def urlencode (params : List (Text × Text)) : Text :=
  ['&'].intercalate
    (params.map fun param => Http.quotePlus param.1 ++ '=' :: Http.quotePlus param.2)

def buildAuthorizeUrl (state : Text) : Except Exn Text := do
  let clientId ← requiredEnv site.clientId
  let redirectUri ← requiredEnv site.redirectUri
  .ok (googleAuthorizeUrl ++ '?' :: urlencode
    [("client_id".toList, clientId), ("redirect_uri".toList, redirectUri),
      ("response_type".toList, "code".toList), ("scope".toList, "openid email".toList),
      ("state".toList, state), ("prompt".toList, "select_account".toList)])

def validateIdToken (rawToken : Text) : Except Failure Text :=
  match requiredEnv site.clientId with
  | .error exn => .error (.other exn)
  | .ok _ =>
      match site.verifyOauth2Token rawToken with
      | .error detail => .error (.oauth ("ID token validation failed: ".toList ++ detail))
      | .ok claims =>
          if claims.iss ∉ [some "accounts.google.com".toList,
              some "https://accounts.google.com".toList] then
            .error (.oauth ("ID token issuer is not Google: ".toList ++ match claims.iss with
              | some iss => site.interpreter.reprUnits (iss.map Char.toNat)
              | none => "None".toList))
          else
            match claims.email with
            | some (c :: rest) =>
                if claims.emailVerified then .ok (c :: rest)
                else .error (.oauth "ID token email is not verified".toList)
            | _ => .error (.oauth "ID token has no email claim".toList)

def escapeAngles (text : Text) : Text :=
  text.flatMap fun c => if c = '<' then "&lt;".toList else if c = '>' then "&gt;".toList else [c]

def errorResponse (status : Nat) (title detail : Text) : Reply :=
  ⟨status, none, some (.problem title (escapeAngles detail)), [], []⟩

def unauthorizedResponse (email : Text) : Reply :=
  ⟨403, none, some (.unauthorized (escapeAngles email)), [],
    [cookieOauthState, cookieOauthRedirectTo]⟩

-- The characters that RedirectResponse leaves alone, beside the unreserved ones.
def redirectSafe : Text := ":/%#?=@[]!$&'()*+,;".toList

def redirectByte (byte : UInt8) : Text :=
  if Char.ofNat byte.toNat ∈ redirectSafe then [Char.ofNat byte.toNat] else Percent.quoteByte byte

def redirectUrl (url : Text) : Text :=
  (utf8 url).flatMap redirectByte

def redirectResponse (url : Text) (cookies : List Cookie) (deleted : List Text) : Reply :=
  ⟨302, some (redirectUrl url), none, cookies, deleted⟩

end Helpers

section Routes

variable (site : Site)

def startsWith (text : Text) (pre : String) : Bool :=
  pre.toList.isPrefixOf text

-- `state` is a token fresh from the system.
def oauthLogin (state next : Text) : Except Exn Reply := do
  if !site.enabled then .error (.http 503 "Google OAuth is not enabled on this server.".toList)
  else
    let authUrl ← buildAuthorizeUrl site state
    let stateCookie := setCookie site cookieOauthState state oauthTempCookieTtlSeconds
    if startsWith next "/" && !startsWith next "//" then
      .ok (redirectResponse authUrl
        [stateCookie, setCookie site cookieOauthRedirectTo next oauthTempCookieTtlSeconds] [])
    else .ok (redirectResponse authUrl [stateCookie] [])

-- The callback up to the ID token: the user's address, or the page that says what is wrong.
def identify (req : CallbackRequest) : Except Exn (Reply ⊕ Text) := do
  if !site.enabled then .error (.http 503 "Google OAuth is not enabled on this server.".toList)
  else
    let verified ← verifyStateToken req.state req.oauthState
    if !verified then
      .ok (.inl (errorResponse 400 "Sign-in session expired or was forged.".toList
        "Try signing in again. If you keep seeing this, make sure cookies are enabled.".toList))
    else if req.code = [] then
      .ok (.inl (errorResponse 400 "Sign-in canceled or rejected.".toList
        "Google didn't return an authorization code. Try again.".toList))
    else
      match site.exchangeCodeForIdToken req.code with
      | .error (.oauth detail) =>
          .ok (.inl (errorResponse 502 "Couldn't reach Google to complete sign-in.".toList detail))
      | .error (.other exn) => .error exn
      | .ok rawIdToken =>
          match validateIdToken site rawIdToken with
          | .error (.oauth detail) =>
              .ok (.inl (errorResponse 401 "Sign-in token validation failed.".toList detail))
          | .error (.other exn) => .error exn
          | .ok email => .ok (.inr email)

def redirectTo (cookie : Option Text) : Text :=
  let target := match cookie with
    | some (c :: rest) => c :: rest
    | _ => "/admin/".toList
  if startsWith target "/" then target else "/admin/".toList

def oauthCallback (clock : AdminAuth.Clock) (req : CallbackRequest) : Handler Reply := do
  let identified ← Handler.ofExcept (identify site req)
  match identified with
  | .inl page => pure page
  | .inr email =>
      let aclRaw ← Handler.get (adminAclKey email)
      if truthy aclRaw then
        match AdminAuth.generateSessionToken site.interpreter site.hmac site.sessionSecret clock
            (.str email) with
        | some sessionToken =>
            pure (redirectResponse (redirectTo req.oauthRedirectTo)
              [setCookie site "admin_session".toList sessionToken (7 * 24 * 60 * 60)]
              [cookieOauthState, cookieOauthRedirectTo])
        | none => throw (.python "UnicodeEncodeError".toList)
      else pure (unauthorizedResponse email)

end Routes

end Stra2us.OAuth
