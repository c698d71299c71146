import Stra2us.OAuth.Redirect
import Stra2us.Server.Sequential

namespace Stra2us.OAuth

open Foundation Server Url

section Encoding

theorem redirectByte_spec (byte : UInt8) :
    (redirectByte byte).all (fun c => !isControlOrSpace c) = true ∧
      (byte ≠ 0x2f → (redirectByte byte).head?.any (fun c => !isSlash c) = true) := by
  revert byte
  apply Percent.byte_forall
  decide +kernel

theorem slash_notMem_utf8EncodeChar {c : Char} (hc : c ≠ '/') :
    ∀ byte ∈ String.utf8EncodeChar c, byte ≠ 0x2f := by
  have hval : c.val.toNat ≠ 0x2f := by
    intro h
    exact hc (Char.ext (UInt32.toNat_inj.mp h))
  have hbyte : ∀ n : Nat, n % 256 ≠ 0x2f → UInt8.ofNat n ≠ 0x2f := by
    intro n hn h
    have := congrArg UInt8.toNat h
    rw [UInt8.toNat_ofNat'] at this
    exact hn this
  intro byte hmem
  unfold String.utf8EncodeChar at hmem
  dsimp only at hmem
  split_ifs at hmem with hone htwo hthree
  · rw [List.mem_singleton] at hmem
    subst hmem
    exact hbyte _ (by omega)
  all_goals
    simp only [List.mem_cons, List.not_mem_nil, or_false] at hmem
    rcases hmem with rfl | hmem
    · exact hbyte _ (by omega)
  · subst hmem
    exact hbyte _ (by omega)
  · rcases hmem with rfl | rfl <;> exact hbyte _ (by omega)
  · rcases hmem with rfl | rfl | rfl <;> exact hbyte _ (by omega)

theorem redirectUrl_cons (c : Char) (rest : Text) :
    redirectUrl (c :: rest) = (String.utf8EncodeChar c).flatMap redirectByte ++ redirectUrl rest := by
  unfold redirectUrl
  rw [utf8_cons, List.flatMap_append]

theorem redirectUrl_slash (rest : Text) : redirectUrl ('/' :: rest) = '/' :: redirectUrl rest := by
  rw [redirectUrl_cons]
  rfl

theorem redirectUrl_printable (url : Text) :
    ∀ c ∈ redirectUrl url, isControlOrSpace c = false := by
  intro c hc
  obtain ⟨byte, -, hmem⟩ := List.mem_flatMap.mp hc
  have hplain := List.all_eq_true.mp (redirectByte_spec byte).1 c hmem
  rwa [Bool.not_eq_true'] at hplain

-- Only a slash becomes one.
theorem redirectUrl_head {rest : Text} (hrest : rest.head? ≠ some '/') :
    ∀ c, (redirectUrl rest).head? = some c → isSlash c = false := by
  intro c hc
  cases rest with
  | nil => cases hc
  | cons d rest =>
      have hd : d ≠ '/' := fun h => hrest (congrArg some h)
      obtain ⟨byte, bytes, hbytes⟩ :=
        List.exists_cons_of_ne_nil (@String.utf8EncodeChar_ne_nil d)
      have hslash : byte ≠ 0x2f :=
        slash_notMem_utf8EncodeChar hd byte (hbytes ▸ List.mem_cons_self)
      have hplain := (redirectByte_spec byte).2 hslash
      rw [redirectUrl_cons, hbytes, List.flatMap_cons] at hc
      cases hred : redirectByte byte with
      | nil =>
          rw [hred] at hplain
          cases hplain
      | cons first more =>
          rw [hred] at hc hplain
          rw [← Option.some.inj hc, ← Bool.not_eq_true']
          exact hplain

end Encoding

section Property

-- How the browser that follows the redirect reads hosts, and references with a scheme.
structure Browser (Host : Type) where
  parseHost : Text → Option Host
  schemed : Text → Option (Origin Host)

variable {Host : Type} (browser : Browser Host) (origin : Origin Host) (site : Site)

-- Where the callback redirects, the browser stays at the server's origin.
def StaysOnOrigin (clock : AdminAuth.Clock) (req : CallbackRequest) (w : World) : Prop :=
  ∀ reply w', (oauthCallback site clock req).runOn w = (.ok reply, w') →
    ∀ location, reply.location = some location →
      resolve browser.parseHost browser.schemed origin location = some origin

-- The callback's earlier checks let this request through.
def Admitted (req : CallbackRequest) (w : World) : Prop :=
  ∃ email, identify site req = .ok (.inr email) ∧ truthy (w.store.get (adminAclKey email)) = true

-- One slash, or two and the server's own name.
def OwnTarget (target : Text) : Prop :=
  startsWith target "//" = true →
    Names browser.parseHost origin ((redirectUrl target).dropWhile isSlash)

end Property

section Resolution

variable {Host : Type} {browser : Browser Host} {origin : Origin Host} {site : Site}
  {clock : AdminAuth.Clock} {req : CallbackRequest} {w : World}

theorem startsWith_slash {target : Text} :
    startsWith target "/" = true ↔ ∃ rest, target = '/' :: rest := by
  unfold startsWith
  rw [List.isPrefixOf_iff_prefix]
  exact ⟨fun ⟨rest, h⟩ => ⟨rest, h.symm⟩, fun ⟨rest, h⟩ => ⟨rest, h.symm⟩⟩

theorem startsWith_slashes {rest : Text} :
    startsWith ('/' :: rest) "//" = true ↔ rest.head? = some '/' := by
  unfold startsWith
  cases rest with
  | nil => exact ⟨fun h => (by cases h), fun h => (by cases h)⟩
  | cons c rest =>
      rw [List.head?_cons, Option.some_inj, List.isPrefixOf_iff_prefix]
      constructor
      · rintro ⟨tail, htail⟩
        cases htail
        rfl
      · rintro rfl
        exact ⟨rest, rfl⟩

theorem redirectTo_slash (cookie : Option Text) : ∃ rest, redirectTo cookie = '/' :: rest := by
  apply startsWith_slash.mp
  unfold redirectTo
  dsimp only
  split_ifs with h
  · exact h
  · rfl

theorem resolve_redirectUrl (rest : Text) :
    resolve browser.parseHost browser.schemed origin (redirectUrl ('/' :: rest)) = some origin ↔
      OwnTarget browser origin ('/' :: rest) := by
  have hprintable := redirectUrl_printable ('/' :: rest)
  unfold OwnTarget
  rw [startsWith_slashes]
  rw [redirectUrl_slash] at hprintable ⊢
  by_cases hhead : rest.head? = some '/'
  · cases rest with
    | nil => cases hhead
    | cons c rest =>
        obtain rfl := Option.some.inj hhead
        rw [redirectUrl_slash] at hprintable ⊢
        rw [resolve_network hprintable]
        exact ⟨fun h _ => h, fun h => h rfl⟩
  · rw [resolve_path hprintable (redirectUrl_head hhead)]
    exact iff_of_true rfl fun h => absurd h hhead

-- The one reply of the callback that redirects.
def welcome (site : Site) (req : CallbackRequest) (sessionToken : Text) : Reply :=
  redirectResponse (redirectTo req.oauthRedirectTo)
    [setCookie site "admin_session".toList sessionToken (7 * 24 * 60 * 60)]
    [cookieOauthState, cookieOauthRedirectTo]

-- Every page that the callback stops at says what is wrong, and none of them redirects.
theorem identify_page {page : Reply} (h : identify site req = .ok (.inl page)) :
    page.location = none := by
  unfold identify at h
  dsimp only [bind, Except.bind] at h
  split at h
  · cases h
  · cases hverified : verifyStateToken req.state req.oauthState with
    | error exn =>
        rw [hverified] at h
        cases h
    | ok verified =>
        rw [hverified] at h
        dsimp only at h
        split at h
        · cases h
          rfl
        · split at h
          · cases h
            rfl
          · cases hexchange : site.exchangeCodeForIdToken req.code with
            | error failure =>
                rw [hexchange] at h
                cases failure with
                | oauth detail =>
                    cases h
                    rfl
                | other exn => cases h
            | ok rawIdToken =>
                rw [hexchange] at h
                dsimp only at h
                cases hvalidate : validateIdToken site rawIdToken with
                | error failure =>
                    rw [hvalidate] at h
                    cases failure with
                    | oauth detail =>
                        cases h
                        rfl
                    | other exn => cases h
                | ok email =>
                    rw [hvalidate] at h
                    cases h

theorem oauthCallback_admitted (h : Admitted site req w) :
    ∃ sessionToken,
      (oauthCallback site clock req).runOn w = (.ok (welcome site req sessionToken), w) := by
  obtain ⟨email, hidentify, hacl⟩ := h
  obtain ⟨sessionToken, htoken, -⟩ := @AdminAuth.generateSessionToken_str site.interpreter
    site.hmac site.sessionSecret clock email
  refine ⟨sessionToken, ?_⟩
  unfold oauthCallback Handler.get
  rw [hidentify, Handler.runOn_ofExcept_ok_bind]
  dsimp only
  rw [Handler.runOn_ask_bind]
  change (if truthy (w.store.get (adminAclKey email)) = true then _ else _ :
    Handler Reply).runOn w = _
  rw [if_pos hacl, htoken]
  rfl

theorem oauthCallback_refused (h : ¬Admitted site req w) {reply : Reply} {w' : World}
    (hrun : (oauthCallback site clock req).runOn w = (.ok reply, w')) : reply.location = none := by
  unfold oauthCallback Handler.get at hrun
  cases hidentify : identify site req with
  | error exn =>
      rw [hidentify, Handler.runOn_ofExcept_error_bind] at hrun
      cases hrun
  | ok identified =>
      rw [hidentify, Handler.runOn_ofExcept_ok_bind] at hrun
      cases identified with
      | inl page =>
          cases hrun
          exact identify_page hidentify
      | inr email =>
          dsimp only at hrun
          rw [Handler.runOn_ask_bind] at hrun
          change (if truthy (w.store.get (adminAclKey email)) = true then _ else _ :
            Handler Reply).runOn w = _ at hrun
          rw [if_neg fun hacl => h ⟨email, hidentify, hacl⟩] at hrun
          cases hrun
          rfl

theorem staysOnOrigin_iff :
    StaysOnOrigin browser origin site clock req w ↔
      (Admitted site req w → OwnTarget browser origin (redirectTo req.oauthRedirectTo)) := by
  obtain ⟨rest, htarget⟩ := redirectTo_slash req.oauthRedirectTo
  constructor
  · intro hstays hadmitted
    obtain ⟨sessionToken, hrun⟩ := @oauthCallback_admitted site clock req w hadmitted
    have hresolve := hstays _ _ hrun _ rfl
    rw [htarget] at hresolve ⊢
    exact (resolve_redirectUrl rest).mp hresolve
  · intro hown reply w' hrun location hlocation
    by_cases hadmitted : Admitted site req w
    · obtain ⟨sessionToken, hwelcome⟩ := @oauthCallback_admitted site clock req w hadmitted
      rw [hwelcome] at hrun
      cases hrun
      obtain rfl := Option.some.inj hlocation
      rw [htarget]
      apply (resolve_redirectUrl rest).mpr
      rw [← htarget]
      exact hown hadmitted
    · rw [oauthCallback_refused hadmitted hrun] at hlocation
      cases hlocation

-- What the login leaves for the callback.
theorem oauthLogin_cookie {state next : Text} {reply : Reply} {cookie : Cookie}
    (hlogin : oauthLogin site state next = .ok reply) (hcookie : cookie ∈ reply.cookies)
    (hkey : cookie.key = cookieOauthRedirectTo) :
    cookie.value = next ∧ startsWith next "/" = true ∧ startsWith next "//" = false := by
  have hstate : (setCookie site cookieOauthState state oauthTempCookieTtlSeconds).key ≠
      cookieOauthRedirectTo := by
    change cookieOauthState ≠ cookieOauthRedirectTo
    decide
  unfold oauthLogin at hlogin
  dsimp only [bind, Except.bind] at hlogin
  split at hlogin
  · cases hlogin
  · cases hurl : buildAuthorizeUrl site state with
    | error exn =>
        rw [hurl] at hlogin
        cases hlogin
    | ok authUrl =>
        rw [hurl] at hlogin
        dsimp only at hlogin
        by_cases hnext : (startsWith next "/" && !startsWith next "//") = true
        · rw [if_pos hnext] at hlogin
          obtain rfl := Except.ok.inj hlogin
          rcases List.mem_cons.mp hcookie with rfl | hcookie
          · exact absurd hkey hstate
          · obtain rfl := List.mem_singleton.mp hcookie
            rw [Bool.and_eq_true, Bool.not_eq_true'] at hnext
            exact ⟨rfl, hnext⟩
        · rw [if_neg hnext] at hlogin
          obtain rfl := Except.ok.inj hlogin
          obtain rfl := List.mem_singleton.mp hcookie
          exact absurd hkey hstate

theorem ownTarget_of_login {next : Text} (hslash : startsWith next "/" = true)
    (hslashes : startsWith next "//" = false) :
    OwnTarget browser origin (redirectTo (some next)) := by
  obtain ⟨rest, rfl⟩ := startsWith_slash.mp hslash
  have htarget : redirectTo (some ('/' :: rest)) = '/' :: rest := by
    unfold redirectTo
    dsimp only
    rw [if_pos hslash]
  rw [htarget]
  intro h
  rw [hslashes] at h
  cases h

-- A login's own cookie stays; any other one does where it is an own target.
theorem redirects_stay_iff (browser : Browser Host) (origin : Origin Host) (site : Site)
    (state next : Text) (clock : AdminAuth.Clock) (req : CallbackRequest) (w : World) :
    ((∀ reply cookie, oauthLogin site state next = .ok reply → cookie ∈ reply.cookies →
        cookie.key = cookieOauthRedirectTo →
          StaysOnOrigin browser origin site clock
            { req with oauthRedirectTo := some cookie.value } w) ∧
      StaysOnOrigin browser origin site clock req w) ↔
        (Admitted site req w → OwnTarget browser origin (redirectTo req.oauthRedirectTo)) := by
  rw [← @staysOnOrigin_iff Host browser origin site clock req w]
  constructor
  · exact And.right
  · intro hstays
    refine ⟨fun reply cookie hlogin hcookie hkey => ?_, hstays⟩
    obtain ⟨hvalue, hslash, hslashes⟩ := oauthLogin_cookie hlogin hcookie hkey
    rw [hvalue]
    exact staysOnOrigin_iff.mpr fun _ => ownTarget_of_login hslash hslashes

end Resolution

section Sample

-- Google knows one user.
def sampleSite : Site where
  enabled := true
  clientId := some "stra2us".toList
  redirectUri := some "https://stra2us.example/oauth/google/callback".toList
  cookieSecure := true
  exchangeCodeForIdToken := fun _ => .ok "jwt".toList
  verifyOauth2Token := fun _ =>
    .ok ⟨some "accounts.google.com".toList, some "ann@example.com".toList, true⟩
  interpreter := AdminAuth.sampleInterpreter
  hmac := AdminAuth.sampleHmac
  sessionSecret := utf8 "secret".toList

-- Host names in lower case, which is all there is to the ones below.
def sampleBrowser : Browser Text where
  parseHost := fun name => some (name.map Char.toLower)
  schemed := fun _ => none

def sampleOrigin : Origin Text := ⟨"stra2us.example".toList, none⟩

def provisioned : World :=
  ⟨Store.empty.set (adminAclKey "ann@example.com".toList) (utf8 "{}".toList), 0, 0⟩

def planted : CallbackRequest where
  code := "code".toList
  state := "token".toList
  oauthState := some "token".toList
  oauthRedirectTo := some "//evil.example/".toList

theorem planted_admitted : Admitted sampleSite planted provisioned :=
  ⟨"ann@example.com".toList, by decide +kernel, by decide +kernel⟩

theorem planted_leaves_origin :
    ¬StaysOnOrigin sampleBrowser sampleOrigin sampleSite AdminAuth.epoch planted provisioned ∧
      ∃ reply, (oauthCallback sampleSite AdminAuth.epoch planted).runOn provisioned =
          (.ok reply, provisioned) ∧
        reply.location = some "//evil.example/".toList ∧
          resolve sampleBrowser.parseHost sampleBrowser.schemed sampleOrigin
            "//evil.example/".toList = some ⟨"evil.example".toList, none⟩ := by
  obtain ⟨sessionToken, hrun⟩ :=
    @oauthCallback_admitted sampleSite AdminAuth.epoch planted provisioned planted_admitted
  have hlocation : (welcome sampleSite planted sessionToken).location =
      some "//evil.example/".toList := by
    change some (redirectUrl (redirectTo planted.oauthRedirectTo)) = _
    decide +kernel
  have hresolve : resolve sampleBrowser.parseHost sampleBrowser.schemed sampleOrigin
      "//evil.example/".toList = some ⟨"evil.example".toList, none⟩ := by
    decide +kernel
  refine ⟨fun hstays => ?_, _, hrun, hlocation, hresolve⟩
  have hown := hstays _ _ hrun _ hlocation
  rw [hresolve] at hown
  revert hown
  decide

-- A name with a user and a port, behind more slashes than two.
example : resolve sampleBrowser.parseHost sampleBrowser.schemed sampleOrigin
    "///stra2us.example@Evil.example:8443/?x".toList =
      some ⟨"evil.example".toList, some 8443⟩ := by
  decide +kernel

end Sample

end Stra2us.OAuth
