import Stra2us.Http.Serve

namespace Stra2us.Http

open Foundation Server Routing

section Runs

variable {app : Application} {req : HttpRequest} {w : World}

-- The handler run for each user in turn, from the world that the run before it left.
def replay (next : Text → World → Except Exn Answer × World) : List Text → World → World
  | [], w => w
  | user :: users, w => replay next users (next user w).2

-- For whom the middleware runs the handler, whatever the handler is.
def Ran (app : Application) (req : HttpRequest) (w : World) (users : List Text) : Prop :=
  ∀ next, (adminAuth app req next w).2 = replay next users w

-- A handler that the clock counts the runs of, for one user.
def ticking (user : Text) : Text → World → Except Exn Answer × World :=
  fun name w => (.error .outOfFuel,
    if name = user then { w with clock := w.clock + 1 } else w)

theorem replay_ticking (user : Text) (users : List Text) (w : World) :
    (replay (ticking user) users w).clock = w.clock + users.count user := by
  induction users generalizing w with
  | nil => simp [replay]
  | cons name users ih =>
      rw [replay, ih, List.count_cons]
      by_cases hname : name = user
      · simp only [ticking, if_pos hname, beq_iff_eq]
        omega
      · simp only [ticking, if_neg hname, beq_iff_eq, Nat.add_zero]

theorem Ran.perm {users others : List Text} (h : Ran app req w users)
    (hothers : Ran app req w others) : users.Perm others := by
  rw [List.perm_iff_count]
  intro user
  have hclock := congrArg World.clock ((h (ticking user)).symm.trans (hothers (ticking user)))
  rw [replay_ticking, replay_ticking] at hclock
  omega

theorem Ran.user_unique {user other : Text} (h : Ran app req w [user])
    (hother : Ran app req w [other]) : user = other :=
  List.singleton_perm_singleton.mp (h.perm hother)

theorem Ran.not_idle {user : Text} (h : Ran app req w []) : ¬Ran app req w [user] := by
  intro huser
  have hlength := (h.perm huser).length_eq
  simp at hlength

end Runs

section Admission

variable {app : Application} {req : HttpRequest} {w : World}
  {next : Text → World → Except Exn Answer × World} {user : Text}

def CsrfPassed (app : Application) (req : HttpRequest) : Prop :=
  req.method ∈ stateChanging → csrfOriginOk app req = .ok true

def ValidSession (app : Application) (req : HttpRequest) (w : World) (user : Text) : Prop :=
  sessionUser app req w = some user ∧ user ≠ []

def ValidBasic (app : Application) (req : HttpRequest) (user : Text) : Prop :=
  ∃ password, (field? req.headers "authorization").bind basicCredentials = some (user, password) ∧
    app.verifyPassword user password = .ok true

theorem ValidBasic.unique {other : Text} (h : ValidBasic app req user)
    (hother : ValidBasic app req other) : user = other := by
  obtain ⟨password, hcredentials, -⟩ := h
  obtain ⟨otherPassword, hothers, -⟩ := hother
  rw [hcredentials] at hothers
  exact congrArg Prod.fst (Option.some.inj hothers)

theorem ValidSession.unique {other : Text} (h : ValidSession app req w user)
    (hother : ValidSession app req w other) : user = other :=
  Option.some.inj (h.1.symm.trans hother.1)

theorem csrf_of_passed (h : CsrfPassed app req) :
    (if req.method ∈ stateChanging then csrfOriginOk app req else .ok true) = .ok true := by
  by_cases hmethod : req.method ∈ stateChanging
  · rw [if_pos hmethod]
    exact h hmethod
  · rw [if_neg hmethod]

theorem adminAuth_session (hgated : pathNeedsAdminAuth (app.urlPath req) = true)
    (hcsrf : CsrfPassed app req) (hsession : ValidSession app req w user) :
    adminAuth app req next w = next user w := by
  obtain ⟨hsession, hnonempty⟩ := hsession
  unfold adminAuth
  rw [if_pos hgated, csrf_of_passed hcsrf, hsession]
  cases user with
  | nil => exact absurd rfl hnonempty
  | cons c rest => rfl

theorem adminAuth_fallthrough (hgated : pathNeedsAdminAuth (app.urlPath req) = true)
    (hcsrf : CsrfPassed app req) (hsession : ∀ user, ¬ValidSession app req w user) :
    adminAuth app req next w = basicAuth app req next w := by
  unfold adminAuth
  rw [if_pos hgated, csrf_of_passed hcsrf]
  cases huser : sessionUser app req w with
  | none => rfl
  | some name =>
      cases name with
      | nil => rfl
      | cons c rest => exact absurd ⟨huser, List.cons_ne_nil c rest⟩ (hsession (c :: rest))

-- What the client gets of a handler that ran behind Basic credentials.
def behindBasic (app : Application) (req : HttpRequest) (user : Text) :
    Except Exn Answer × World → Except Exn Answer × World
  | (.ok answer, w) =>
      (.ok { answer with response := app.withSession user w.clock answer.response }, w)
  | (.error _, w) => (.ok ⟨challenge app req, none⟩, w)

theorem basicAuth_valid (hbasic : ValidBasic app req user) :
    basicAuth app req next w = behindBasic app req user (next user w) := by
  obtain ⟨password, hcredentials, hverify⟩ := hbasic
  unfold basicAuth
  rw [hcredentials]
  dsimp only
  rw [hverify]
  dsimp only
  cases houtcome : next user w with
  | mk outcome w' =>
      cases outcome with
      | error exn => rfl
      | ok answer => rfl

theorem basicAuth_invalid (hbasic : ∀ user, ¬ValidBasic app req user) :
    basicAuth app req next w = (.ok ⟨challenge app req, none⟩, w) := by
  unfold basicAuth
  cases hcredentials : (field? req.headers "authorization").bind basicCredentials with
  | none => rfl
  | some credentials =>
      obtain ⟨username, password⟩ := credentials
      dsimp only
      cases hverify : app.verifyPassword username password with
      | error exn => rfl
      | ok accepted =>
          cases accepted with
          | false => rfl
          | true => exact absurd ⟨password, hcredentials, hverify⟩ (hbasic username)

theorem adminAuth_crossOrigin (hgated : pathNeedsAdminAuth (app.urlPath req) = true)
    (hcsrf : ¬CsrfPassed app req) : (adminAuth app req next w).2 = w := by
  obtain ⟨hmethod, hrefused⟩ := Classical.not_imp.mp hcsrf
  unfold adminAuth
  rw [if_pos hgated, if_pos hmethod]
  cases horigin : csrfOriginOk app req with
  | error exn => rfl
  | ok allowed =>
      cases allowed with
      | false => rfl
      | true => exact absurd horigin hrefused

end Admission

section Transparency

variable {app : Application} {req : HttpRequest} {w : World}
  {next : Text → World → Except Exn Answer × World} {user : Text}

-- The handler's outcome, but for the session cookie that a login may add.
def OwnOutcome (app : Application) (user : Text) (seen : Except Exn Answer) :
    Except Exn Answer × World → Prop
  | (.error exn, _) => seen = .error exn
  | (.ok answer, w) => seen = .ok answer ∨
      seen = .ok { answer with response := app.withSession user w.clock answer.response }

structure Transparent (app : Application) (req : HttpRequest) (w : World)
    (next : Text → World → Except Exn Answer × World) : Prop where
  ran : ∃ users, Ran app req w users ∧ users.length ≤ 1 ∧
    (users ≠ [] ↔ CsrfPassed app req ∧
      ((∃ user, ValidSession app req w user) ∨ ∃ user, ValidBasic app req user))
  own : ∀ user, Ran app req w [user] →
    OwnOutcome app user (adminAuth app req next w).1 (next user w)

-- No session names a user, the Basic credentials do, and the handler fails for that user.
def FailsBehindBasic (app : Application) (req : HttpRequest) (w : World)
    (next : Text → World → Except Exn Answer × World) : Prop :=
  CsrfPassed app req ∧ (∀ user, ¬ValidSession app req w user) ∧
    ∃ user exn, ValidBasic app req user ∧ (next user w).1 = .error exn

theorem ran_session (hgated : pathNeedsAdminAuth (app.urlPath req) = true)
    (hcsrf : CsrfPassed app req) (hsession : ValidSession app req w user) :
    Ran app req w [user] := by
  intro next
  rw [adminAuth_session hgated hcsrf hsession]
  rfl

theorem behindBasic_world (user : Text) (outcome : Except Exn Answer × World) :
    (behindBasic app req user outcome).2 = outcome.2 := by
  obtain ⟨result, w'⟩ := outcome
  cases result with
  | error exn => rfl
  | ok answer => rfl

theorem ran_basic (hgated : pathNeedsAdminAuth (app.urlPath req) = true)
    (hcsrf : CsrfPassed app req) (hsession : ∀ user, ¬ValidSession app req w user)
    (hbasic : ValidBasic app req user) : Ran app req w [user] := by
  intro next
  rw [adminAuth_fallthrough hgated hcsrf hsession, basicAuth_valid hbasic, behindBasic_world]
  rfl

theorem ran_nobody (hgated : pathNeedsAdminAuth (app.urlPath req) = true)
    (hrefused : ¬(CsrfPassed app req ∧
      ((∃ user, ValidSession app req w user) ∨ ∃ user, ValidBasic app req user))) :
    Ran app req w [] := by
  intro next
  by_cases hcsrf : CsrfPassed app req
  · have hsession : ∀ user, ¬ValidSession app req w user :=
      fun user h => hrefused ⟨hcsrf, .inl ⟨user, h⟩⟩
    have hbasic : ∀ user, ¬ValidBasic app req user :=
      fun user h => hrefused ⟨hcsrf, .inr ⟨user, h⟩⟩
    rw [adminAuth_fallthrough hgated hcsrf hsession, basicAuth_invalid hbasic]
    rfl
  · exact adminAuth_crossOrigin hgated hcsrf

-- Once where the credentials are good, and not at all where they are not.
theorem ran_of_gated (hgated : pathNeedsAdminAuth (app.urlPath req) = true) :
    ∃ users, Ran app req w users ∧ users.length ≤ 1 ∧
      (users ≠ [] ↔ CsrfPassed app req ∧
        ((∃ user, ValidSession app req w user) ∨ ∃ user, ValidBasic app req user)) := by
  by_cases hadmitted : CsrfPassed app req ∧
      ((∃ user, ValidSession app req w user) ∨ ∃ user, ValidBasic app req user)
  · suffices hran : ∃ user, Ran app req w [user] by
      obtain ⟨user, hran⟩ := hran
      exact ⟨[user], hran, Nat.le_refl 1, fun _ => hadmitted, fun _ => List.cons_ne_nil user []⟩
    obtain ⟨hcsrf, hvalid⟩ := hadmitted
    by_cases hsession : ∃ user, ValidSession app req w user
    · obtain ⟨user, huser⟩ := hsession
      exact ⟨user, ran_session hgated hcsrf huser⟩
    · obtain ⟨user, hbasic⟩ := hvalid.resolve_left hsession
      exact ⟨user, ran_basic hgated hcsrf (not_exists.mp hsession) hbasic⟩
  · exact ⟨[], ran_nobody hgated hadmitted, Nat.zero_le 1, fun h => absurd rfl h,
      fun h => absurd h hadmitted⟩

theorem ownOutcome_self (user : Text) (outcome : Except Exn Answer × World) :
    OwnOutcome app user outcome.1 outcome := by
  obtain ⟨result, w'⟩ := outcome
  cases result with
  | error exn => rfl
  | ok answer => exact .inl rfl

theorem ownOutcome_behindBasic (user : Text) (outcome : Except Exn Answer × World) :
    OwnOutcome app user (behindBasic app req user outcome).1 outcome ↔
      ∀ exn, outcome.1 ≠ .error exn := by
  obtain ⟨result, w'⟩ := outcome
  cases result with
  | ok answer =>
      have hnever : ∀ exn, (Except.ok answer : Except Exn Answer) ≠ .error exn := by
        intro exn h
        cases h
      exact iff_of_true (.inr rfl) hnever
  | error exn =>
      have hchallenge : ¬OwnOutcome app user (behindBasic app req user (.error exn, w')).1
          (.error exn, w') := by
        intro h
        cases h
      exact iff_of_false hchallenge fun h => h exn rfl

theorem transparent_iff (hgated : pathNeedsAdminAuth (app.urlPath req) = true) :
    Transparent app req w next ↔ ¬FailsBehindBasic app req w next := by
  constructor
  · rintro htransparent ⟨hcsrf, hsession, user, exn, hbasic, hfails⟩
    have hown := htransparent.own user (ran_basic hgated hcsrf hsession hbasic)
    rw [adminAuth_fallthrough hgated hcsrf hsession, basicAuth_valid hbasic] at hown
    exact (ownOutcome_behindBasic user (next user w)).mp hown exn hfails
  · intro hfine
    refine ⟨ran_of_gated hgated, fun user hran => ?_⟩
    by_cases hadmitted : CsrfPassed app req ∧
        ((∃ user, ValidSession app req w user) ∨ ∃ user, ValidBasic app req user)
    · obtain ⟨hcsrf, hvalid⟩ := hadmitted
      by_cases hsession : ∃ user, ValidSession app req w user
      · obtain ⟨name, hname⟩ := hsession
        obtain rfl := hran.user_unique (ran_session hgated hcsrf hname)
        rw [adminAuth_session hgated hcsrf hname]
        exact ownOutcome_self user (next user w)
      · obtain ⟨name, hbasic⟩ := hvalid.resolve_left hsession
        have hnobody := not_exists.mp hsession
        obtain rfl := hran.user_unique (ran_basic hgated hcsrf hnobody hbasic)
        rw [adminAuth_fallthrough hgated hcsrf hnobody, basicAuth_valid hbasic]
        refine (ownOutcome_behindBasic user (next user w)).mpr fun exn hfails => ?_
        exact hfine ⟨hcsrf, hnobody, user, exn, hbasic, hfails⟩
    · exact absurd hran (ran_nobody hgated hadmitted).not_idle

-- One htpasswd user, and a store that goes away after the first deletion of a client.
def failing : Application :=
  { deployment with
    rescueUsers := ["ops".toList]
    verifyPassword := fun username password =>
      .ok (username = "ops".toList ∧ password = "secret".toList)
    handle := fun _ _ _ w =>
      (.error (.python "ConnectionError".toList),
        { w with store := w.store.delete ["client:dev:secret".toList] }) }

def deleteKey : HttpRequest where
  method := "DELETE".toList
  path := "/api/admin/keys/dev".toList
  query := []
  headers := [("authorization".toList, "Basic b3BzOnNlY3JldA==".toList)]
  cookies := []
  body := []

def keyed : World :=
  ⟨Store.empty.set "client:dev:secret".toList [0x61, 0x62], 0, 0⟩

theorem transparent_iff_deleteKey :
    pathNeedsAdminAuth (failing.urlPath deleteKey) = true ∧
      (Transparent failing deleteKey keyed (router failing deleteKey) ↔
        ¬FailsBehindBasic failing deleteKey keyed (router failing deleteKey)) :=
  ⟨by decide +kernel, transparent_iff (by decide +kernel)⟩

theorem deleteKey_fails :
    (router failing deleteKey "ops".toList keyed).1 =
        .error (.python "ConnectionError".toList) ∧
      (router failing deleteKey "ops".toList keyed).2.store.get "client:dev:secret".toList =
        none := by
  decide +kernel

theorem deleteKey_challenged :
    pathNeedsAdminAuth (failing.urlPath deleteKey) = true ∧
      ¬Transparent failing deleteKey keyed (router failing deleteKey) ∧
        (adminAuth failing deleteKey (router failing deleteKey) keyed).1 =
            .ok ⟨challenge failing deleteKey, none⟩ ∧
          (challenge failing deleteKey).status = 401 ∧
            (adminAuth failing deleteKey (router failing deleteKey) keyed).2.store.get
              "client:dev:secret".toList = none := by
  have hgated : pathNeedsAdminAuth (failing.urlPath deleteKey) = true := by decide +kernel
  have hcsrf : CsrfPassed failing deleteKey := fun _ => rfl
  have hsession : ∀ user, ¬ValidSession failing deleteKey keyed user := by
    intro user huser
    cases huser.1
  have hbasic : ValidBasic failing deleteKey "ops".toList :=
    ⟨"secret".toList, by decide +kernel, by decide +kernel⟩
  obtain ⟨hfails, hgone⟩ := deleteKey_fails
  refine ⟨hgated, fun htransparent => ?_, ?_, rfl, ?_⟩
  · have hown := htransparent.own _ (ran_basic hgated hcsrf hsession hbasic)
    rw [adminAuth_fallthrough hgated hcsrf hsession, basicAuth_valid hbasic] at hown
    exact (ownOutcome_behindBasic _ _).mp hown _ hfails
  · rw [adminAuth_fallthrough hgated hcsrf hsession, basicAuth_valid hbasic]
    cases houtcome : router failing deleteKey "ops".toList keyed with
    | mk result w' =>
        rw [houtcome] at hfails
        dsimp only at hfails
        rw [hfails]
        rfl
  · rw [adminAuth_fallthrough hgated hcsrf hsession, basicAuth_valid hbasic, behindBasic_world]
    exact hgone

end Transparency

end Stra2us.Http
