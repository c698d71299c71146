import Stra2us.Foundation.Repack
import Stra2us.Server.Device

namespace Stra2us.Server

open Foundation

namespace Handler

variable {α β : Type}

-- The handler on its own, with nobody else at the store.
def runOn (handler : Handler α) (w : World) : Except Exn α × World :=
  handler.run.run exec w

@[simp] theorem runOn_pure (value : α) (w : World) :
    (pure value : Handler α).runOn w = (.ok value, w) := rfl

@[simp] theorem runOn_throw (exn : Exn) (w : World) :
    (throw exn : Handler α).runOn w = (.error exn, w) := rfl

@[simp] theorem runOn_ofExcept (result : Except Exn α) (w : World) :
    (ofExcept result).runOn w = (result, w) := rfl

@[simp] theorem runOn_ask (cmd : Cmd) (w : World) :
    (ask cmd).runOn w = (.ok (exec cmd w).1, (exec cmd w).2) := rfl

theorem runOn_bind (handler : Handler α) (f : α → Handler β) (w : World) :
    (handler >>= f).runOn w =
      match handler.runOn w with
      | (.ok value, w') => (f value).runOn w'
      | (.error exn, w') => (.error exn, w') := by
  change (handler.run >>= ExceptT.bindCont f).run exec w = _
  rw [Prog.run_bind]
  simp only [runOn]
  cases hr : handler.run.run exec w with
  | mk result w' =>
      cases result with
      | ok value => rfl
      | error exn => rfl

theorem runOn_bind_of_ok {handler : Handler α} {f : α → Handler β} {w w' : World} {value : α}
    (h : handler.runOn w = (.ok value, w')) : (handler >>= f).runOn w = (f value).runOn w' := by
  rw [runOn_bind, h]

theorem runOn_bind_of_error {handler : Handler α} {f : α → Handler β} {w w' : World} {exn : Exn}
    (h : handler.runOn w = (.error exn, w')) : (handler >>= f).runOn w = (.error exn, w') := by
  rw [runOn_bind, h]

-- A handler that went through went through in both of its parts.
theorem runOn_bind_ok {handler : Handler α} {f : α → Handler β} {w w' : World} {result : β} :
    (handler >>= f).runOn w = (.ok result, w') ↔
      ∃ value w₁, handler.runOn w = (.ok value, w₁) ∧ (f value).runOn w₁ = (.ok result, w') := by
  rw [runOn_bind]
  cases hr : handler.runOn w with
  | mk answer w₁ =>
      cases answer with
      | error exn => simp
      | ok value =>
          constructor
          · intro h
            exact ⟨value, w₁, rfl, h⟩
          · rintro ⟨value', w₁', hsame, h⟩
            obtain ⟨hvalue, rfl⟩ := Prod.mk.inj hsame
            obtain rfl := Except.ok.inj hvalue
            exact h

@[simp] theorem runOn_ask_bind (cmd : Cmd) (f : Reply cmd → Handler β) (w : World) :
    (ask cmd >>= f).runOn w = (f (exec cmd w).1).runOn (exec cmd w).2 := rfl

@[simp] theorem runOn_ofExcept_ok_bind (value : α) (f : α → Handler β) (w : World) :
    (ofExcept (.ok value) >>= f).runOn w = (f value).runOn w := rfl

@[simp] theorem runOn_ofExcept_error_bind (exn : Exn) (f : α → Handler β) (w : World) :
    (ofExcept (.error exn) >>= f).runOn w = (.error exn, w) := rfl

theorem runOn_map (handler : Handler α) (f : α → β) (w : World) :
    (f <$> handler).runOn w = ((handler.runOn w).1.map f, (handler.runOn w).2) := by
  have hmap : f <$> handler = handler >>= fun value => pure (f value) := rfl
  rw [hmap, runOn_bind]
  cases hr : handler.runOn w with
  | mk result w' => cases result <;> rfl

end Handler

section Sessions

variable (jsonDepth : Nat) (rescueUsers : List Text) (username : Text)

-- What a session comes to, read off the store.
def adminContextIn (store : Store) : Except Exn Value :=
  if username = [] then .error (.http 401 "Admin session required".toList)
  else adminAclOfRecord jsonDepth rescueUsers username (store.get (adminAclKey username))

def superuserIn (store : Store) : Except Exn Unit :=
  adminContextIn jsonDepth rescueUsers username store >>= checkSuperuser

theorem getAdminContext_runOn (w : World) :
    (getAdminContext jsonDepth rescueUsers username).runOn w =
      (adminContextIn jsonDepth rescueUsers username w.store, w) := by
  unfold getAdminContext adminContextIn
  by_cases hname : username = []
  · rw [if_pos hname, if_pos hname]
    rfl
  · rw [if_neg hname, if_neg hname]
    rfl

theorem requireAdminSuperuser_runOn (w : World) :
    (requireAdminSuperuser jsonDepth rescueUsers username).runOn w =
      (superuserIn jsonDepth rescueUsers username w.store, w) := by
  unfold requireAdminSuperuser superuserIn
  rw [Handler.runOn_bind, getAdminContext_runOn]
  cases adminContextIn jsonDepth rescueUsers username w.store with
  | ok acl => rfl
  | error exn => rfl

theorem requireAdminKv_runOn (key : Text) (mode : Mode) (w : World) :
    (requireAdminKv jsonDepth rescueUsers username key mode).runOn w =
      (adminContextIn jsonDepth rescueUsers username w.store >>=
        fun acl => checkAcl acl ("kv/".toList ++ key) mode, w) := by
  unfold requireAdminKv
  rw [Handler.runOn_bind, getAdminContext_runOn]
  cases adminContextIn jsonDepth rescueUsers username w.store with
  | ok acl => rfl
  | error exn => rfl

end Sessions

section Answers

variable (hmac : Hmac) (context : Context) (request : Request)

-- A client that got this far has a secret the server can sign with.
theorem signPayload_isOk (uri : Text) (body : Bytes) (timestamp : Int) :
    ∃ sig, signPayload hmac context.secretHex uri body timestamp = .ok sig := by
  obtain ⟨secret, hs⟩ := Option.isSome_iff_exists.mp context.hexValid
  simp [signPayload, calculateSignature, hs]

theorem signedResponse_runOn (body : Bytes) (status : Nat) (w : World) :
    ∃ response, (signedResponse hmac context request body status).runOn w = (.ok response, w) ∧
      response.body = body ∧ response.status = status ∧ response.timestamp = w.clock := by
  obtain ⟨sig, hsig⟩ := signPayload_isOk hmac context request.path body w.clock
  refine ⟨⟨status, body, msgpackMt, w.clock, sig⟩, ?_, rfl, rfl, rfl⟩
  change (Handler.ofExcept (signPayload hmac context.secretHex request.path body w.clock) >>=
    fun sig => (pure ⟨status, body, msgpackMt, w.clock, sig⟩ : Handler Response)).runOn w = _
  rw [hsig]
  rfl

theorem packb_statusValue {status : Text} (h : (utf8 status).length < 2 ^ 32) :
    ∃ bytes, Msgpack.packb (statusValue status) = some bytes := by
  have hpacks : Msgpack.Packs (statusValue status) := by
    refine Msgpack.packs_dict (by simp) ?_
    intro pair hp
    obtain rfl := List.mem_singleton.mp hp
    exact ⟨Msgpack.packs_str (by decide), Msgpack.packs_str h⟩
  exact Option.isSome_iff_exists.mp ((hpacks _).mpr rfl)

theorem signedMsgpack_runOn {status : Text} (h : (utf8 status).length < 2 ^ 32) (w : World) :
    ∃ response,
      (signedMsgpack hmac context request (statusValue status)).runOn w = (.ok response, w) ∧
      response.status = 200 := by
  obtain ⟨body, hbody⟩ := packb_statusValue h
  obtain ⟨response, hrun, -, hstatus, -⟩ := signedResponse_runOn hmac context request body 200 w
  refine ⟨response, ?_, hstatus⟩
  unfold signedMsgpack
  simp only [packOrRaise, hbody]
  exact hrun

end Answers

end Stra2us.Server
