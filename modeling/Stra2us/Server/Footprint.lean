import Stra2us.Server.Api

namespace Stra2us.Server

open Foundation

-- The string keys a command replaces or removes. The nonce script, which keeps its
-- own key, is not among them.
def Cmd.overwrites (key : Text) : Cmd → Prop
  | .set k _ => k = key
  | .delete keys => key ∈ keys
  | _ => False

instance (key : Text) (cmd : Cmd) : Decidable (cmd.overwrites key) :=
  match cmd with
  | .set k _ => inferInstanceAs (Decidable (k = key))
  | .delete keys => inferInstanceAs (Decidable (key ∈ keys))
  | .time => isFalse id
  | .get _ => isFalse id
  | .xadd _ _ => isFalse id
  | .xread _ _ _ => isFalse id
  | .expire _ _ => isFalse id
  | .kvencNonce _ _ => isFalse id

def Cmd.namesNonce : Cmd → Prop
  | .kvencNonce key _ => ∃ clientId, key = nonceKey clientId
  | _ => True

structure OnlyOverwrites (keys : Text → Prop) (cmd : Cmd) : Prop where
  within : ∀ key, cmd.overwrites key → keys key
  nonce : cmd.namesNonce

section Families

-- The key families letter by letter, so that two of them are told apart at once.
theorem kvKey_injective : Function.Injective kvKey :=
  fun _ _ h => List.append_cancel_left h

theorem encKey_injective : Function.Injective encKey :=
  fun _ _ h => kvKey_injective (List.append_cancel_right h)

theorem encKey_ne_kvKey (key : Text) : encKey key ≠ kvKey key := by
  intro h
  have hlen := congrArg List.length h
  simp [encKey] at hlen

theorem kvKey_eq (key : Text) :
    kvKey key = 'k' :: 'v' :: ':' :: key := rfl

theorem queueKey_eq (topic : Text) :
    queueKey topic = 'q' :: ':' :: topic := rfl

theorem nonceKey_eq (clientId : Text) :
    nonceKey clientId = 'k' :: 'v' :: 'e' :: 'n' :: 'c' :: ':' :: 'n' :: 'o' :: 'n' :: 'c' :: 'e' :: ':' :: clientId := rfl

theorem clientSecretKey_eq (clientId : Text) :
    clientSecretKey clientId = 'c' :: 'l' :: 'i' :: 'e' :: 'n' :: 't' :: ':' :: (clientId ++ ":secret".toList) := rfl

theorem clientAclKey_eq (clientId : Text) :
    clientAclKey clientId = 'c' :: 'l' :: 'i' :: 'e' :: 'n' :: 't' :: ':' :: (clientId ++ ":acl".toList) := rfl

theorem deviceToAppKey_eq (clientId : Text) :
    deviceToAppKey clientId = 'd' :: 'e' :: 'v' :: 'i' :: 'c' :: 'e' :: '_' :: 't' :: 'o' :: '_' :: 'a' :: 'p' :: 'p' :: ':' :: clientId := rfl

theorem adminAclKey_eq (username : Text) :
    adminAclKey username = 'a' :: 'd' :: 'm' :: 'i' :: 'n' :: '_' :: 'a' :: 'c' :: 'l' :: 's' :: ':' :: username := rfl

theorem cursorKey_eq (consumerId topic : Text) :
    cursorKey consumerId topic =
      'c' :: 'u' :: 'r' :: 's' :: 'o' :: 'r' :: ':' :: (consumerId ++ ":q:".toList ++ topic) := rfl

theorem encKey_eq (key : Text) :
    encKey key = 'k' :: 'v' :: ':' :: (key ++ ":enc".toList) := rfl

end Families

namespace Handler

variable {α β : Type} {allowed : Cmd → Prop}

def Issues (allowed : Cmd → Prop) (handler : Handler α) : Prop :=
  Prog.Issues allowed handler.run

theorem issues_pure (value : α) : Issues allowed (pure value) := trivial

theorem issues_throw (exn : Exn) : Issues allowed (throw exn : Handler α) := trivial

theorem issues_ofExcept (result : Except Exn α) : Issues allowed (ofExcept result) := trivial

theorem issues_ask {cmd : Cmd} (h : allowed cmd) : Issues allowed (ask cmd) :=
  ⟨h, fun _ => trivial⟩

theorem issues_bind {handler : Handler α} {f : α → Handler β} (h : Issues allowed handler)
    (hf : ∀ value, Issues allowed (f value)) : Issues allowed (handler >>= f) := by
  apply Prog.Issues.bind h
  intro result
  cases result with
  | ok value => exact hf value
  | error exn => trivial

-- What comes after a check needs to be looked at only where the check is passed.
theorem issues_check {result : Except Exn α} {f : α → Handler β}
    (hf : ∀ value, result = .ok value → Issues allowed (f value)) :
    Issues allowed (ofExcept result >>= f) := by
  cases result with
  | ok value => exact hf value rfl
  | error exn => exact issues_throw exn

theorem issues_map {handler : Handler α} {f : α → β} (h : Issues allowed handler) :
    Issues allowed (f <$> handler) :=
  issues_bind h fun _ => trivial

theorem Issues.mono {more : Cmd → Prop} {handler : Handler α} (h : Issues allowed handler)
    (hmore : ∀ cmd, allowed cmd → more cmd) : Issues more handler :=
  Prog.Issues.mono h hmore

end Handler

section Footprints

open Handler

variable {α : Type} {keys : Text → Prop}

theorem onlyOverwrites_set {key : Text} (h : keys key) (value : Bytes) :
    OnlyOverwrites keys (.set key value) where
  within := by
    rintro k rfl
    exact h
  nonce := trivial

theorem onlyOverwrites_delete {ks : List Text} (h : ∀ key ∈ ks, keys key) :
    OnlyOverwrites keys (.delete ks) := ⟨h, trivial⟩

theorem issues_ask_of_none {cmd : Cmd} (h : ∀ key, ¬ cmd.overwrites key)
    (hnonce : cmd.namesNonce) : Issues (OnlyOverwrites keys) (ask cmd) :=
  issues_ask ⟨fun key hk => absurd hk (h key), hnonce⟩

theorem issues_time : Issues (OnlyOverwrites keys) time :=
  issues_ask_of_none (fun _ => id) trivial

theorem issues_get (key : Text) : Issues (OnlyOverwrites keys) (get key) :=
  issues_ask_of_none (fun _ => id) trivial

theorem issues_set {key : Text} (h : keys key) (value : Bytes) :
    Issues (OnlyOverwrites keys) (set key value) :=
  issues_ask (onlyOverwrites_set h value)

theorem issues_delete {ks : List Text} (h : ∀ key ∈ ks, keys key) :
    Issues (OnlyOverwrites keys) (delete ks) :=
  issues_ask (onlyOverwrites_delete h)

variable (hmac : Hmac) (context : Context) (request : Request)

theorem signedResponse_issues (body : Bytes) (status : Nat) :
    Issues (OnlyOverwrites keys) (signedResponse hmac context request body status) :=
  issues_bind issues_time fun _ => issues_bind (issues_ofExcept _) fun _ => issues_pure _

theorem signedMsgpack_issues (obj : Value) :
    Issues (OnlyOverwrites keys) (signedMsgpack hmac context request obj) :=
  issues_bind (issues_ofExcept _) fun _ => signedResponse_issues hmac context request _ _

theorem nextKvencNonce_issues (clientId : Text) :
    Issues (OnlyOverwrites keys) (nextKvencNonce clientId) := by
  refine issues_bind issues_time fun now =>
    issues_bind (issues_ask_of_none (fun _ => id) ⟨clientId, rfl⟩) ?_
  intro nonce
  cases nonce with
  | none => exact issues_throw _
  | some nonce => exact issues_pure _

theorem publishMessage_issues (topic : Text) (ttl : Int) :
    Issues (OnlyOverwrites keys) (publishMessage hmac context topic request ttl) := by
  refine issues_bind (issues_ofExcept _) fun _ => issues_bind (issues_ofExcept _) fun body => ?_
  refine issues_bind issues_time fun now => issues_bind (issues_ofExcept _) fun exp => ?_
  refine issues_bind (issues_ask_of_none (fun _ => id) trivial) fun _ => ?_
  refine issues_bind (issues_ask_of_none (fun _ => id) trivial) fun _ => ?_
  exact signedMsgpack_issues hmac context request _

theorem nextMessage_issues {cursor : Text} (h : keys cursor) (topic : Text) (currentTime : Int)
    (fuel : Nat) (lastId : Text) :
    Issues (OnlyOverwrites keys) (nextMessage cursor topic currentTime fuel lastId) := by
  induction fuel generalizing lastId with
  | zero => exact issues_throw _
  | succ fuel ih =>
      refine issues_bind (issues_ask_of_none (fun _ => id) trivial) fun reply => ?_
      match reply with
      | none => exact issues_throw _
      | some [] => exact issues_pure _
      | some (entry :: rest) =>
          refine issues_bind (issues_ofExcept _) fun scanned => ?_
          refine issues_bind (issues_set h _) fun _ => ?_
          match scanned with
          | (lastId, none) => exact ih lastId
          | (_, some entry) => exact issues_pure _

theorem handOut_issues (envelope : Bool) (message : Option Entry) :
    Issues (OnlyOverwrites keys) (handOut hmac context request envelope message) := by
  cases message with
  | none =>
      exact issues_bind (signedResponse_issues hmac context request _ _) fun _ => issues_pure _
  | some entry =>
      refine issues_bind (issues_ofExcept _) fun body => ?_
      exact issues_bind (signedResponse_issues hmac context request _ _) fun _ => issues_pure _

theorem consumeTagged_issues (topic : Text) (envelope : Bool) (fuel : Nat)
    (h : keys (cursorKey context.clientId topic)) :
    Issues (OnlyOverwrites keys)
      (consumeTagged hmac context topic request envelope fuel) := by
  refine issues_bind (issues_ofExcept _) fun _ => issues_bind (issues_get _) fun stored => ?_
  refine issues_bind (issues_ofExcept _) fun lastId => issues_bind issues_time fun now => ?_
  exact issues_bind (nextMessage_issues h topic now fuel lastId) fun message =>
    handOut_issues hmac context request envelope message

theorem writeKv_issues (gate : Gate) (key : Text) (hvalue : keys (kvKey key))
    (hflag : keys (encKey key)) :
    Issues (OnlyOverwrites keys) (writeKv hmac gate context key request) := by
  refine issues_bind (issues_ofExcept _) fun _ => issues_bind (issues_ofExcept _) fun body => ?_
  have hrest : Issues (OnlyOverwrites keys) (do
      Handler.set (kvKey key) body
      if request.header? "x-encrypted".toList = some "1".toList then
        Handler.set (encKey key) (utf8 "1".toList)
      else
        Handler.delete [encKey key]
      signedMsgpack hmac context request (statusValue "ok".toList)) := by
    refine issues_bind (issues_set hvalue _) fun _ => ?_
    split
    · exact issues_bind (issues_set hflag _) fun _ => signedMsgpack_issues hmac context request _
    · refine issues_bind (issues_delete ?_) fun _ => signedMsgpack_issues hmac context request _
      simpa using hflag
  by_cases hc : isCatalogYamlKey key ∧ body ≠ []
  · simp only [hc, ne_eq, not_false_eq_true, and_self, ite_true]
    exact issues_bind (issues_ofExcept _) fun _ => hrest
  · simp only [hc, ite_false]
    exact hrest

theorem readKv_issues (key : Text) :
    Issues (OnlyOverwrites keys) (readKv hmac context key request) := by
  refine issues_bind (issues_ofExcept _) fun _ => issues_bind (issues_get _) fun value => ?_
  cases value with
  | none => exact signedMsgpack_issues hmac context request _
  | some value =>
      refine issues_bind (issues_get _) fun flag => ?_
      by_cases hf : truthy flag
      · simp only [hf, ite_true]
        refine issues_bind (issues_ofExcept _) fun plaintext => ?_
        exact issues_bind (nextKvencNonce_issues _) fun _ => issues_ofExcept _
      · simp only [hf]
        exact signedResponse_issues hmac context request _ _

theorem deleteKv_issues (key : Text) (hvalue : keys (kvKey key)) (hflag : keys (encKey key)) :
    Issues (OnlyOverwrites keys) (deleteKv hmac context key request) := by
  refine issues_bind (issues_ofExcept _) fun _ => issues_bind (issues_delete ?_) fun _ =>
    signedMsgpack_issues hmac context request _
  simp [hvalue, hflag]

section Admins

variable (site : Site) (username : Text)

theorem getAdminContext_issues {allowed : Cmd → Prop}
    (h : allowed (.get (adminAclKey username))) :
    Issues allowed (getAdminContext site.jsonDepth site.rescueUsers username) := by
  unfold getAdminContext
  by_cases hu : username = []
  · rw [if_pos hu]
    exact issues_bind (issues_throw _) fun _ => issues_bind (issues_ask h) fun _ =>
      issues_ofExcept _
  · rw [if_neg hu]
    exact issues_bind (issues_ask h) fun _ => issues_ofExcept _

theorem loadAdminAcl_issues :
    Issues (OnlyOverwrites keys) (getAdminContext site.jsonDepth site.rescueUsers username) :=
  getAdminContext_issues site username ⟨fun _ hk => absurd hk id, trivial⟩

theorem requireAdminKv_issues (key : Text) (mode : Mode) :
    Issues (OnlyOverwrites keys)
      (requireAdminKv site.jsonDepth site.rescueUsers username key mode) :=
  issues_bind (loadAdminAcl_issues site username) fun _ => issues_ofExcept _

theorem requireAdminSuperuser_issues :
    Issues (OnlyOverwrites keys)
      (requireAdminSuperuser site.jsonDepth site.rescueUsers username) :=
  issues_bind (loadAdminAcl_issues site username) fun _ => issues_ofExcept _

theorem setFlag_issues {key : Text} (h : keys (encKey key)) (encrypted : Bool) :
    Issues (OnlyOverwrites keys) (setFlag key encrypted) := by
  cases encrypted with
  | true => exact issues_set h _
  | false => exact issues_delete (by simpa using h)

theorem setKv_issues (key : Text) (payload : KvPayload) (hvalue : keys (kvKey key))
    (hflag : keys (encKey key)) :
    Issues (OnlyOverwrites keys) (setKv site username key payload) := by
  refine issues_bind (requireAdminKv_issues site username key _) fun _ => ?_
  refine issues_bind (issues_ofExcept _) fun data => issues_bind (issues_ofExcept _) fun packed => ?_
  exact issues_bind (issues_set hvalue _) fun _ => setFlag_issues hflag _

theorem writeField_issues (vars : Value) (app device name raw : Text)
    (hvalue : keys (kvKey (fieldKey app device name)))
    (hflag : keys (encKey (fieldKey app device name))) :
    Issues (OnlyOverwrites keys) (writeField site vars app device name raw) := by
  refine issues_bind (issues_ofExcept _) fun decoded => ?_
  refine issues_bind (issues_ofExcept _) fun packed => issues_bind (issues_set hvalue _) fun _ => ?_
  cases declaredEncrypted vars name with
  | some encrypted => exact setFlag_issues hflag encrypted
  | none =>
      refine issues_bind (issues_get _) fun flag => ?_
      by_cases hf : truthy flag
      · simp only [hf, ite_true]
        exact issues_set hflag _
      · simp only [hf]
        exact issues_pure _

theorem writeFields_issues (vars : Value) (app device : Text) (form : List (Text × Text))
    (hvalue : ∀ field ∈ form, keys (kvKey (fieldKey app device field.1)))
    (hflag : ∀ field ∈ form, keys (encKey (fieldKey app device field.1))) :
    Issues (OnlyOverwrites keys) (writeFields site vars app device form) := by
  induction form with
  | nil => exact issues_pure _
  | cons field rest ih =>
      have hrest := ih (fun f hf => hvalue f (List.mem_cons_of_mem _ hf))
        (fun f hf => hflag f (List.mem_cons_of_mem _ hf))
      obtain ⟨name, raw⟩ := field
      unfold writeFields
      by_cases h : name = [] ∨ '/' ∈ name
      · simp only [h, ite_true]
        exact hrest
      · simp only [h, ite_false]
        refine issues_bind (writeField_issues site vars app device name raw ?_ ?_) fun _ => hrest
        · exact hvalue (name, raw) (by simp)
        · exact hflag (name, raw) (by simp)

theorem submitDeviceForm_issues (app device : Text) (form : List (Text × Text))
    (hvalue : ∀ field ∈ form, keys (kvKey (fieldKey app device field.1)))
    (hflag : ∀ field ∈ form, keys (encKey (fieldKey app device field.1))) :
    Issues (OnlyOverwrites keys) (submitDeviceForm site username app device form) := by
  refine issues_bind (loadAdminAcl_issues site username) fun acl => ?_
  cases checkAcl acl ("kv/".toList ++ app ++ '/' :: device) .write with
  | error exn =>
      cases exn with
      | http status detail => exact issues_pure _
      | python name => exact issues_throw _
      | outOfFuel => exact issues_throw _
  | ok _ =>
      refine issues_bind (issues_bind (issues_get _) fun _ => issues_ofExcept _) fun catalog => ?_
      exact issues_bind (writeFields_issues site _ app device form hvalue hflag) fun _ =>
        issues_pure _

theorem restoreEach_issues (force : Bool) (clients : List ClientBackupEntry)
    (hsecret : ∀ client ∈ clients, rejectIfReserved client.clientId = .ok () →
      keys (clientSecretKey client.clientId))
    (hacl : ∀ client ∈ clients, keys (clientAclKey client.clientId)) :
    Issues (OnlyOverwrites keys) (restoreEach site force clients) := by
  induction clients with
  | nil => exact issues_pure _
  | cons client rest ih =>
      have hrest := ih (fun c hc => hsecret c (List.mem_cons_of_mem _ hc))
        (fun c hc => hacl c (List.mem_cons_of_mem _ hc))
      refine issues_check fun _ hfree => issues_bind (issues_get _) fun existing => ?_
      by_cases h : truthy existing ∧ ¬ force
      · rw [if_pos h]
        exact hrest
      · rw [if_neg h]
        refine issues_bind (issues_set (hsecret client (by simp) hfree) _) fun _ => ?_
        refine issues_bind (issues_ofExcept _) fun _ => ?_
        exact issues_bind (issues_set (hacl client (by simp)) _) fun _ => hrest

end Admins

end Footprints

-- The string keys a request may replace or remove.
def Call.overwrites : Call → Text → Prop
  | .publish _ _ _ _, _ => False
  | .consume context topic _ _ _, k => k = cursorKey context.clientId topic
  | .writeKv _ key _, k => k = kvKey key ∨ k = encKey key
  | .readKv _ _ _, _ => False
  | .deleteKv _ key _, k => k = kvKey key ∨ k = encKey key
  | .setKv _ key _, k => k = kvKey key ∨ k = encKey key
  | .adminDeleteKv _ key, k => k = kvKey key ∨ k = encKey key
  | .deleteQueue _ topic, k => k = queueKey topic
  | .submitForm _ app device form, k => ∃ field ∈ form,
      k = kvKey (fieldKey app device field.1) ∨ k = encKey (fieldKey app device field.1)
  | .createClient _ clientId _, k => k = clientSecretKey clientId ∨ k = clientAclKey clientId
  | .provisionDevice _ clientId _ _, k =>
      k = clientSecretKey clientId ∨ k = clientAclKey clientId ∨ k = deviceToAppKey clientId
  | .updateAcl _ clientId _, k => k = clientAclKey clientId
  | .revokeClient _ clientId, k =>
      k = clientSecretKey clientId ∨ k = clientAclKey clientId ∨ k = deviceToAppKey clientId
  | .updateAdminUserAcl _ target _, k => k = adminAclKey target
  | .deleteAdminUserAcl _ target, k => k = adminAclKey target
  | .restoreKeys _ _ clients, k => ∃ client ∈ clients,
      k = clientSecretKey client.clientId ∨ k = clientAclKey client.clientId

theorem Call.issues (site : Site) (call : Call) :
    (call.program site).Issues (OnlyOverwrites call.overwrites) := by
  change Handler.Issues _ (call.handler site)
  cases call with
  | publish context topic request ttl =>
      exact Handler.issues_map (publishMessage_issues site.hmac context request topic ttl)
  | consume context topic request envelope fuel =>
      refine Handler.issues_map (Handler.issues_bind ?_ fun _ => Handler.issues_pure _)
      exact consumeTagged_issues site.hmac context request topic envelope fuel rfl
  | writeKv context key request =>
      exact Handler.issues_map (writeKv_issues site.hmac context request site.gate key
        (Or.inl rfl) (Or.inr rfl))
  | readKv context key request =>
      exact Handler.issues_map (readKv_issues site.hmac context request key)
  | deleteKv context key request =>
      exact Handler.issues_map
        (deleteKv_issues site.hmac context request key (Or.inl rfl) (Or.inr rfl))
  | setKv username key payload =>
      exact Handler.issues_map
        (setKv_issues site username key payload (Or.inl rfl) (Or.inr rfl))
  | adminDeleteKv username key =>
      refine Handler.issues_map (Handler.issues_bind
        (requireAdminKv_issues site username key _) fun _ => issues_delete ?_)
      simp [Call.overwrites]
  | deleteQueue username topic =>
      refine Handler.issues_map (Handler.issues_bind (Handler.issues_bind
        (loadAdminAcl_issues site username) fun _ => Handler.issues_ofExcept _) fun _ => ?_)
      exact issues_delete (by simp [Call.overwrites])
  | submitForm username app device form =>
      refine Handler.issues_map (submitDeviceForm_issues site username app device form ?_ ?_)
      · intro field hf
        exact ⟨field, hf, Or.inl rfl⟩
      · intro field hf
        exact ⟨field, hf, Or.inr rfl⟩
  | createClient username clientId secret =>
      refine Handler.issues_map (Handler.issues_bind
        (requireAdminSuperuser_issues site username) fun _ => ?_)
      refine Handler.issues_bind (Handler.issues_ofExcept _) fun _ => ?_
      refine Handler.issues_bind (issues_set (Or.inl rfl) _) fun _ => ?_
      exact Handler.issues_bind (Handler.issues_ofExcept _) fun _ => issues_set (Or.inr rfl) _
  | provisionDevice username clientId app secret =>
      have hrest : Handler.Issues (OnlyOverwrites
          (Call.provisionDevice username clientId app secret).overwrites) (do
            let acl ← Handler.ofExcept (dumpRecord site (permissionsAcl
              [permission (app ++ '/' :: clientId) "rw".toList,
                permission (app ++ "/public".toList) "rw".toList]))
            Handler.set (clientAclKey clientId) acl
            Handler.set (deviceToAppKey clientId) (utf8 app)) := by
        refine Handler.issues_bind (Handler.issues_ofExcept _) fun _ => ?_
        refine Handler.issues_bind (issues_set (Or.inr (Or.inl rfl)) _) fun _ => ?_
        exact issues_set (Or.inr (Or.inr rfl)) _
      refine Handler.issues_map (Handler.issues_bind
        (requireAdminSuperuser_issues site username) fun _ => ?_)
      refine Handler.issues_bind (Handler.issues_ofExcept _) fun _ => ?_
      refine Handler.issues_bind (issues_get _) fun existing => ?_
      by_cases h : existing = none
      · rw [if_pos h]
        exact Handler.issues_bind (issues_set (Or.inl rfl) _) fun _ => hrest
      · rw [if_neg h]
        exact hrest
  | updateAcl username clientId permissions =>
      refine Handler.issues_map (Handler.issues_bind
        (requireAdminSuperuser_issues site username) fun _ => ?_)
      refine Handler.issues_bind (issues_get _) fun existing => ?_
      by_cases h : truthy existing
      · rw [if_pos h]
        exact Handler.issues_bind (Handler.issues_ofExcept _) fun _ =>
          issues_set (by simp [Call.overwrites]) _
      · rw [if_neg h]
        exact Handler.issues_throw _
  | revokeClient username clientId =>
      refine Handler.issues_map (Handler.issues_bind
        (requireAdminSuperuser_issues site username) fun _ => ?_)
      refine Handler.issues_bind (issues_delete (by simp [Call.overwrites])) fun _ => ?_
      refine Handler.issues_bind (issues_delete (by simp [Call.overwrites])) fun _ => ?_
      exact issues_delete (by simp [Call.overwrites])
  | updateAdminUserAcl username target permissions =>
      have hrest : Handler.Issues (OnlyOverwrites
          (Call.updateAdminUserAcl username target permissions).overwrites) (do
            let acl ← Handler.ofExcept (dumpRecord site
              (permissionsAcl (permissions.map aclPermission)))
            Handler.set (adminAclKey target) acl) :=
        Handler.issues_bind (Handler.issues_ofExcept _) fun _ =>
          issues_set (by simp [Call.overwrites]) _
      refine Handler.issues_map (Handler.issues_bind
        (requireAdminSuperuser_issues site username) fun _ => ?_)
      by_cases h : strip target = []
      · rw [if_pos h]
        exact Handler.issues_bind (Handler.issues_throw _) fun _ => hrest
      · rw [if_neg h]
        exact hrest
  | deleteAdminUserAcl username target =>
      refine Handler.issues_map (Handler.issues_bind
        (requireAdminSuperuser_issues site username) fun _ => ?_)
      exact issues_delete (by simp [Call.overwrites])
  | restoreKeys username force clients =>
      refine Handler.issues_map (Handler.issues_bind
        (requireAdminSuperuser_issues site username) fun _ => ?_)
      refine restoreEach_issues site force clients ?_ ?_
      · intro client hc hfree
        exact ⟨client, hc, Or.inl rfl⟩
      · intro client hc
        exact ⟨client, hc, Or.inr rfl⟩

end Stra2us.Server
