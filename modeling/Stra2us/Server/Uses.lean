import Stra2us.Server.Footprint
import Stra2us.Server.Sequential

namespace Stra2us.Server

open Foundation

-- The records a command looks at, and those it may change. A command that makes the new
-- record from the old one does both.
def Cmd.Uses (reads writes : Text → Prop) : Cmd → Prop
  | .time => True
  | .get key => reads key
  | .set key _ => writes key
  | .delete keys => ∀ key ∈ keys, writes key
  | .xadd key _ => reads key ∧ writes key
  | .xread key _ _ => reads key
  | .expire key _ => reads key ∧ writes key
  | .kvencNonce key _ => reads key ∧ writes key

-- Two worlds that hold the same records under these keys, at the same moment.
structure Agree (keys : Text → Prop) (w v : World) : Prop where
  get : ∀ key, keys key → w.store.get key = v.store.get key
  stream : ∀ key, keys key → w.store.stream? key = v.store.stream? key
  clock : w.clock = v.clock
  redisMs : w.redisMs = v.redisMs

namespace Agree

variable {keys more : Text → Prop} {w v u : World}

theorem refl (keys : Text → Prop) (w : World) : Agree keys w w :=
  ⟨fun _ _ => rfl, fun _ _ => rfl, rfl, rfl⟩

theorem symm (h : Agree keys w v) : Agree keys v w :=
  ⟨fun key hk => (h.get key hk).symm, fun key hk => (h.stream key hk).symm, h.clock.symm,
    h.redisMs.symm⟩

theorem trans (h : Agree keys w v) (h' : Agree keys v u) : Agree keys w u where
  get := fun key hk => (h.get key hk).trans (h'.get key hk)
  stream := fun key hk => (h.stream key hk).trans (h'.stream key hk)
  clock := h.clock.trans h'.clock
  redisMs := h.redisMs.trans h'.redisMs

theorem mono (h : Agree keys w v) (hsub : ∀ key, more key → keys key) : Agree more w v :=
  ⟨fun key hk => h.get key (hsub key hk), fun key hk => h.stream key (hsub key hk), h.clock,
    h.redisMs⟩

theorem stream_eq (h : Agree keys w v) {key : Text} (hk : keys key) :
    w.store.stream key = v.store.stream key := by
  simp [Store.stream, h.stream key hk]

end Agree

section Commands

variable {reads writes : Text → Prop} {cmd : Cmd}

-- A command changes nothing outside the records it may change.
theorem Cmd.Uses.frame (h : cmd.Uses reads writes) (w : World) :
    Agree (fun key => ¬ writes key) (exec cmd w).2 w := by
  have hne : ∀ key k, ¬ writes key → writes k → key ≠ k := by
    rintro key k hnot hk rfl
    exact hnot hk
  cases cmd with
  | time => exact .refl _ _
  | get key => exact .refl _ _
  | xread key last count => exact .refl _ _
  | set k value =>
      exact ⟨fun key hkey => Store.get_set_of_ne _ (hne key k hkey h) _, fun key hkey => rfl, rfl,
        rfl⟩
  | delete ks =>
      refine ⟨fun key hkey => ?_, fun key hkey => ?_, rfl, rfl⟩
      · have hmem : key ∉ ks := fun hmem => hkey (h key hmem)
        simp [Store.get_delete, hmem]
      · have hmem : key ∉ ks := fun hmem => hkey (h key hmem)
        simp [Store.stream?_delete, hmem]
  | xadd k fields =>
      refine ⟨fun key hkey => rfl, fun key hkey => ?_, rfl, rfl⟩
      change (w.store.xadd _ k fields).2.stream? key = _
      rw [Store.stream?_xadd, if_neg (hne key k hkey h.2)]
  | expire k seconds =>
      refine ⟨fun key hkey => ?_, fun key hkey => ?_, rfl, rfl⟩
      · exact Store.get_expire _ _ _ _
      · change (w.store.expire k _).stream? key = _
        rw [Store.stream?_expire, if_neg (hne key k hkey h.2)]
  | kvencNonce k now =>
      have hkey : ∀ key, ¬ writes key → key ≠ k := fun key hkey => hne key k hkey h.2
      simp only [exec, kvencNonceLua]
      cases lastNonce w.store k with
      | none => exact .refl _ _
      | some last =>
          exact ⟨fun key hk => Store.get_set_of_ne _ (hkey key hk) _, fun key _ => rfl, rfl, rfl⟩

-- What a command answers and leaves depends on the records it looks at only.
theorem Cmd.Uses.agree (h : cmd.Uses reads writes) {w v : World} (hw : Agree reads w v) :
    (exec cmd w).1 = (exec cmd v).1 ∧ Agree reads (exec cmd w).2 (exec cmd v).2 := by
  cases cmd with
  | time => exact ⟨hw.clock, hw⟩
  | get key => exact ⟨hw.get key h, hw⟩
  | xread key last count =>
      refine ⟨?_, hw⟩
      simp only [exec_xread, Store.xread, hw.stream_eq h]
  | set k value =>
      refine ⟨rfl, fun key hkey => ?_, hw.stream, hw.clock, hw.redisMs⟩
      simp only [exec_set, Store.get_set, hw.get key hkey]
  | delete ks =>
      refine ⟨rfl, fun key hkey => ?_, fun key hkey => ?_, hw.clock, hw.redisMs⟩
      · simp only [exec_delete, Store.get_delete, hw.get key hkey]
      · simp only [exec_delete, Store.stream?_delete, hw.stream key hkey]
  | xadd k fields =>
      have hms := hw.redisMs
      have hstream := hw.stream_eq h.1
      refine ⟨?_, hw.get, fun key hkey => ?_, hw.clock, hw.redisMs⟩
      · simp only [exec, Store.xadd, hms, hstream]
      · change (w.store.xadd _ k fields).2.stream? key = (v.store.xadd _ k fields).2.stream? key
        rw [Store.stream?_xadd, Store.stream?_xadd, hms, hstream, hw.stream key hkey]
  | expire k seconds =>
      have hms := hw.redisMs
      refine ⟨rfl, fun key hkey => ?_, fun key hkey => ?_, hw.clock, hw.redisMs⟩
      · change (w.store.expire k _).get key = (v.store.expire k _).get key
        rw [Store.get_expire, Store.get_expire, hw.get key hkey]
      · change (w.store.expire k _).stream? key = (v.store.expire k _).stream? key
        rw [Store.stream?_expire, Store.stream?_expire, hms, hw.stream k h.1, hw.stream key hkey]
  | kvencNonce k now =>
      have hlast : lastNonce w.store k = lastNonce v.store k := by
        simp only [lastNonce, hw.get k h.1]
      simp only [exec, kvencNonceLua, hlast]
      cases lastNonce v.store k with
      | none => exact ⟨rfl, hw⟩
      | some last =>
          refine ⟨rfl, fun key hkey => ?_, hw.stream, hw.clock, hw.redisMs⟩
          simp only [Store.get_set, hw.get key hkey]

theorem Cmd.Uses.mono {reads' writes' : Text → Prop} (h : cmd.Uses reads writes)
    (hreads : ∀ key, reads key → reads' key) (hwrites : ∀ key, writes key → writes' key) :
    cmd.Uses reads' writes' := by
  cases cmd with
  | time => trivial
  | get key => exact hreads key h
  | set key value => exact hwrites key h
  | delete keys => exact fun key hk => hwrites key (h key hk)
  | xadd key fields => exact ⟨hreads key h.1, hwrites key h.2⟩
  | xread key last count => exact hreads key h
  | expire key seconds => exact ⟨hreads key h.1, hwrites key h.2⟩
  | kvencNonce key now => exact ⟨hreads key h.1, hwrites key h.2⟩

end Commands

namespace Handler

variable {α β : Type} {reads writes : Text → Prop} {handler : Handler α}

def Uses (reads writes : Text → Prop) (handler : Handler α) : Prop :=
  Issues (Cmd.Uses reads writes) handler

theorem Uses.frame (h : handler.Uses reads writes) (w : World) :
    Agree (fun key => ¬ writes key) (handler.runOn w).2 w := by
  apply Prog.Issues.run (fun a b => Agree (fun key => ¬ writes key) b a) h
  · exact .refl _
  · exact fun a b c hab hbc => hbc.trans hab
  · exact fun cmd v hcmd => hcmd.frame v

theorem Uses.agree (h : handler.Uses reads writes) {w v : World} (hw : Agree reads w v) :
    (handler.runOn w).1 = (handler.runOn v).1 ∧
      Agree reads (handler.runOn w).2 (handler.runOn v).2 :=
  Prog.Issues.run_alike h (fun _ _ _ hcmd halike => hcmd.agree halike) hw

-- A handler is blind to what another one changes apart from the records it looks at.
theorem Uses.blind {reads' writes' : Text → Prop} {other : Handler β}
    (h : handler.Uses reads writes) (hother : other.Uses reads' writes')
    (hapart : ∀ key, reads key → ¬ writes' key) (w : World) :
    (handler.runOn (other.runOn w).2).1 = (handler.runOn w).1 :=
  (h.agree ((hother.frame w).mono hapart)).1

theorem Uses.mono {reads' writes' : Text → Prop} (h : handler.Uses reads writes)
    (hreads : ∀ key, reads key → reads' key) (hwrites : ∀ key, writes key → writes' key) :
    handler.Uses reads' writes' :=
  Issues.mono h fun _ hcmd => hcmd.mono hreads hwrites

end Handler

section Footprints

open Handler

variable {reads writes : Text → Prop} (hmac : Hmac) (context : Context) (request : Request)

theorem uses_time : time.Uses reads writes :=
  issues_ask trivial

theorem uses_get {key : Text} (h : reads key) : (Handler.get key).Uses reads writes :=
  issues_ask h

theorem uses_set {key : Text} (h : writes key) (value : Bytes) :
    (Handler.set key value).Uses reads writes :=
  issues_ask h

theorem uses_delete {keys : List Text} (h : ∀ key ∈ keys, writes key) :
    (Handler.delete keys).Uses reads writes :=
  issues_ask h

theorem signedResponse_uses (body : Bytes) (status : Nat) :
    (signedResponse hmac context request body status).Uses reads writes :=
  issues_bind uses_time fun _ => issues_bind (issues_ofExcept _) fun _ => issues_pure _

theorem signedMsgpack_uses (obj : Value) :
    (signedMsgpack hmac context request obj).Uses reads writes :=
  issues_bind (issues_ofExcept _) fun _ => signedResponse_uses hmac context request _ _

theorem nextKvencNonce_uses {clientId : Text} (hr : reads (nonceKey clientId))
    (hw : writes (nonceKey clientId)) : (nextKvencNonce clientId).Uses reads writes := by
  refine issues_bind uses_time fun now => issues_bind (issues_ask ⟨hr, hw⟩) fun nonce => ?_
  cases nonce with
  | none => exact issues_throw _
  | some nonce => exact issues_pure _

section Kv

theorem writeKv_uses (gate : Gate) {key : Text} (hvalue : writes (kvKey key))
    (hflag : writes (encKey key)) :
    (writeKv hmac gate context key request).Uses reads writes := by
  refine issues_bind (issues_ofExcept _) fun _ => issues_bind (issues_ofExcept _) fun body => ?_
  have hrest : Uses reads writes (do
      Handler.set (kvKey key) body
      if request.header? "x-encrypted".toList = some "1".toList then
        Handler.set (encKey key) (utf8 "1".toList)
      else
        Handler.delete [encKey key]
      signedMsgpack hmac context request (statusValue "ok".toList)) := by
    refine issues_bind (uses_set hvalue _) fun _ => ?_
    split
    · exact issues_bind (uses_set hflag _) fun _ => signedMsgpack_uses hmac context request _
    · refine issues_bind (uses_delete ?_) fun _ => signedMsgpack_uses hmac context request _
      simpa using hflag
  by_cases hc : isCatalogYamlKey key ∧ body ≠ []
  · simp only [hc, ne_eq, not_false_eq_true, and_self, ite_true]
    exact issues_bind (issues_ofExcept _) fun _ => hrest
  · simp only [hc, ite_false]
    exact hrest

theorem readKv_uses {key : Text} (hvalue : reads (kvKey key)) (hflag : reads (encKey key))
    (hnonce : reads (nonceKey context.clientId)) (hwrites : writes (nonceKey context.clientId)) :
    (readKv hmac context key request).Uses reads writes := by
  refine issues_bind (issues_ofExcept _) fun _ => issues_bind (uses_get hvalue) fun value => ?_
  cases value with
  | none => exact signedMsgpack_uses hmac context request _
  | some value =>
      refine issues_bind (uses_get hflag) fun flag => ?_
      by_cases hf : truthy flag
      · simp only [hf, ite_true]
        refine issues_bind (issues_ofExcept _) fun plaintext => ?_
        exact issues_bind (nextKvencNonce_uses hnonce hwrites) fun _ => issues_ofExcept _
      · simp only [hf]
        exact signedResponse_uses hmac context request _ _

theorem deleteKv_uses {key : Text} (hvalue : writes (kvKey key)) (hflag : writes (encKey key)) :
    (deleteKv hmac context key request).Uses reads writes := by
  refine issues_bind (issues_ofExcept _) fun _ => issues_bind (uses_delete ?_) fun _ =>
    signedMsgpack_uses hmac context request _
  simp [hvalue, hflag]

end Kv

section Admins

variable (site : Site) {username : Text}

theorem getAdminContext_uses (h : reads (adminAclKey username)) :
    (getAdminContext site.jsonDepth site.rescueUsers username).Uses reads writes :=
  getAdminContext_issues site username h

theorem requireAdminKv_uses (h : reads (adminAclKey username)) (key : Text) (mode : Mode) :
    (requireAdminKv site.jsonDepth site.rescueUsers username key mode).Uses reads writes :=
  issues_bind (getAdminContext_uses site h) fun _ => issues_ofExcept _

theorem setFlag_uses {key : Text} (h : writes (encKey key)) (encrypted : Bool) :
    (setFlag key encrypted).Uses reads writes := by
  cases encrypted with
  | true => exact uses_set h _
  | false => exact uses_delete (by simpa using h)

theorem setKv_uses (hadmin : reads (adminAclKey username)) {key : Text} (payload : KvPayload)
    (hvalue : writes (kvKey key)) (hflag : writes (encKey key)) :
    (setKv site username key payload).Uses reads writes := by
  refine issues_bind (requireAdminKv_uses site hadmin key _) fun _ => ?_
  refine issues_bind (issues_ofExcept _) fun data => issues_bind (issues_ofExcept _) fun packed => ?_
  exact issues_bind (uses_set hvalue _) fun _ => setFlag_uses hflag _

theorem adminDeleteKv_uses (hadmin : reads (adminAclKey username)) {key : Text}
    (hvalue : writes (kvKey key)) (hflag : writes (encKey key)) :
    (adminDeleteKv site username key).Uses reads writes := by
  refine issues_bind (requireAdminKv_uses site hadmin key _) fun _ => uses_delete ?_
  simp [hvalue, hflag]

theorem requireAdminSuperuser_uses (h : reads (adminAclKey username)) :
    (requireAdminSuperuser site.jsonDepth site.rescueUsers username).Uses reads writes :=
  issues_bind (getAdminContext_uses site h) fun _ => issues_ofExcept _

theorem deleteQueue_uses (hadmin : reads (adminAclKey username)) {topic : Text}
    (hqueue : writes (queueKey topic)) : (deleteQueue site username topic).Uses reads writes := by
  refine issues_bind (issues_bind (getAdminContext_uses site hadmin) fun _ =>
    issues_ofExcept _) fun _ => uses_delete ?_
  simp [hqueue]

theorem updateAdminUserAcl_uses (hadmin : reads (adminAclKey username)) {target : Text}
    (permissions : List (Text × Text)) (hacl : writes (adminAclKey target)) :
    (updateAdminUserAcl site username target permissions).Uses reads writes := by
  have hrest : (do
      let acl ← Handler.ofExcept (dumpRecord site (permissionsAcl (permissions.map aclPermission)))
      Handler.set (adminAclKey target) acl : Handler Unit).Uses reads writes :=
    issues_bind (issues_ofExcept _) fun _ => uses_set hacl _
  refine issues_bind (requireAdminSuperuser_uses site hadmin) fun _ => ?_
  by_cases h : strip target = []
  · rw [if_pos h]
    exact issues_bind (issues_throw _) fun _ => hrest
  · rw [if_neg h]
    exact hrest

theorem deleteAdminUserAcl_uses (hadmin : reads (adminAclKey username)) {target : Text}
    (hacl : writes (adminAclKey target)) :
    (deleteAdminUserAcl site username target).Uses reads writes := by
  refine issues_bind (requireAdminSuperuser_uses site hadmin) fun _ => uses_delete ?_
  simp [hacl]

section Fields

variable {vars : Value} {app device : Text}

theorem writeField_uses {name : Text} (raw : Text)
    (hread : reads (encKey (fieldKey app device name)))
    (hvalue : writes (kvKey (fieldKey app device name)))
    (hflag : writes (encKey (fieldKey app device name))) :
    (writeField site vars app device name raw).Uses reads writes := by
  refine issues_bind (issues_ofExcept _) fun decoded => ?_
  refine issues_bind (issues_ofExcept _) fun packed => issues_bind (uses_set hvalue _) fun _ => ?_
  cases declaredEncrypted vars name with
  | some encrypted => exact setFlag_uses hflag encrypted
  | none =>
      refine issues_bind (uses_get hread) fun flag => ?_
      by_cases hf : truthy flag
      · simp only [hf, ite_true]
        exact uses_set hflag _
      · simp only [hf]
        exact issues_pure _

theorem writeFields_uses (form : List (Text × Text))
    (h : ∀ field ∈ form, ¬ (field.1 = [] ∨ '/' ∈ field.1) →
      reads (encKey (fieldKey app device field.1)) ∧ writes (kvKey (fieldKey app device field.1)) ∧
        writes (encKey (fieldKey app device field.1))) :
    (writeFields site vars app device form).Uses reads writes := by
  induction form with
  | nil => exact issues_pure _
  | cons field rest ih =>
      have hrest := ih fun f hf => h f (List.mem_cons_of_mem _ hf)
      obtain ⟨name, raw⟩ := field
      unfold writeFields
      by_cases hname : name = [] ∨ '/' ∈ name
      · simp only [hname, ite_true]
        exact hrest
      · obtain ⟨hread, hvalue, hflag⟩ := h (name, raw) List.mem_cons_self hname
        simp only [hname, ite_false]
        exact issues_bind (writeField_uses site raw hread hvalue hflag) fun _ => hrest

theorem submitDeviceForm_uses (form : List (Text × Text)) (hadmin : reads (adminAclKey username))
    (hcatalog : reads (catalogKey app))
    (h : ∀ field ∈ form, ¬ (field.1 = [] ∨ '/' ∈ field.1) →
      reads (encKey (fieldKey app device field.1)) ∧ writes (kvKey (fieldKey app device field.1)) ∧
        writes (encKey (fieldKey app device field.1))) :
    (submitDeviceForm site username app device form).Uses reads writes := by
  refine issues_bind (getAdminContext_uses site hadmin) fun acl => ?_
  cases checkAcl acl ("kv/".toList ++ app ++ '/' :: device) .write with
  | error exn =>
      cases exn with
      | http status detail => exact issues_pure _
      | python name => exact issues_throw _
      | outOfFuel => exact issues_throw _
  | ok _ =>
      refine issues_bind (issues_bind (uses_get hcatalog) fun _ => issues_ofExcept _)
        fun catalog => ?_
      exact issues_bind (writeFields_uses site form h) fun _ => issues_pure _

end Fields

end Admins

section Queue

theorem publishMessage_uses {topic : Text} (ttl : Int) (hread : reads (queueKey topic))
    (hwrite : writes (queueKey topic)) :
    (publishMessage hmac context topic request ttl).Uses reads writes := by
  refine issues_bind (issues_ofExcept _) fun _ => issues_bind (issues_ofExcept _) fun body => ?_
  refine issues_bind uses_time fun now => issues_bind (issues_ofExcept _) fun exp => ?_
  refine issues_bind (issues_ask ⟨hread, hwrite⟩) fun _ => ?_
  exact issues_bind (issues_ask ⟨hread, hwrite⟩) fun _ => signedMsgpack_uses hmac context request _

theorem nextMessage_uses {cursor topic : Text} (hcursor : writes cursor)
    (hqueue : reads (queueKey topic)) (currentTime : Int) (fuel : Nat) (lastId : Text) :
    (nextMessage cursor topic currentTime fuel lastId).Uses reads writes := by
  induction fuel generalizing lastId with
  | zero => exact issues_throw _
  | succ fuel ih =>
      refine issues_bind (issues_ask hqueue) fun reply => ?_
      match reply with
      | none => exact issues_throw _
      | some [] => exact issues_pure _
      | some (entry :: rest) =>
          refine issues_bind (issues_ofExcept _) fun scanned => ?_
          refine issues_bind (uses_set hcursor _) fun _ => ?_
          match scanned with
          | (lastId, none) => exact ih lastId
          | (_, some entry) => exact issues_pure _

theorem handOut_uses (envelope : Bool) (message : Option Entry) :
    (handOut hmac context request envelope message).Uses reads writes := by
  cases message with
  | none =>
      exact issues_bind (signedResponse_uses hmac context request _ _) fun _ => issues_pure _
  | some entry =>
      refine issues_bind (issues_ofExcept _) fun body => ?_
      exact issues_bind (signedResponse_uses hmac context request _ _) fun _ => issues_pure _

theorem consumeMessage_uses {topic : Text} (envelope : Bool) (fuel : Nat)
    (hread : reads (cursorKey context.clientId topic))
    (hwrite : writes (cursorKey context.clientId topic)) (hqueue : reads (queueKey topic)) :
    (consumeMessage hmac context topic request envelope fuel).Uses reads writes := by
  refine issues_bind ?_ fun _ => issues_pure _
  refine issues_bind (issues_ofExcept _) fun _ => issues_bind (uses_get hread) fun stored => ?_
  refine issues_bind (issues_ofExcept _) fun lastId => issues_bind uses_time fun now => ?_
  exact issues_bind (nextMessage_uses hwrite hqueue now fuel lastId) fun message =>
    handOut_uses hmac context request envelope message

end Queue

end Footprints

end Stra2us.Server
