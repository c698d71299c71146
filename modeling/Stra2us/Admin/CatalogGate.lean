import Stra2us.Admin.Operation
import Stra2us.Backup.Atomicity
import Stra2us.Server.Gate

namespace Stra2us.Admin

open Foundation Server Backup

section Admits

variable (site : Site)

-- Under the key of a catalog, the bytes are none or get through the gate.
def Admits (key : Text) (bytes : Bytes) : Prop :=
  isCatalogYamlKey key → bytes ≠ [] → site.gate bytes = .ok ()

-- A value with its flag, which is a record of its own.
def AdmitsRecord (key : Text) (bytes : Bytes) (encrypted : Bool) : Prop :=
  Admits site key bytes ∧ (encrypted → Admits site (flagOf key) (utf8 "1".toList))

def CatalogsPass (w : World) : Prop :=
  ∀ key bytes, w.store.get (kvKey key) = some bytes → Admits site key bytes

-- The same of any key of the store.
def AdmitsAt (key : Text) (bytes : Bytes) : Prop :=
  ∀ name, key = kvKey name → Admits site name bytes

variable {site}

theorem catalogsPass_iff {w : World} : CatalogsPass site w ↔
    ∀ key bytes, w.store.get key = some bytes → AdmitsAt site key bytes := by
  constructor
  · rintro h key bytes hget name rfl
    exact h name bytes hget
  · intro h key bytes hget
    exact h (kvKey key) bytes hget key rfl

theorem admitsAt_kvKey {key : Text} {bytes : Bytes} (h : Admits site key bytes) :
    AdmitsAt site (kvKey key) bytes := by
  intro name hname
  rw [← kvKey_inj.mp hname]
  exact h

theorem admitsAt_encKey {key : Text} {bytes : Bytes} (h : Admits site (flagOf key) bytes) :
    AdmitsAt site (encKey key) bytes := by
  rw [← kvKey_flagOf]
  exact admitsAt_kvKey h

-- Keys of the other families are no catalog's.
theorem admitsAt_of_head {key : Text} (h : key.head? ≠ some 'k') (bytes : Bytes) :
    AdmitsAt site key bytes := by
  rintro name rfl
  exact absurd rfl h

theorem admitsAt_nonceKey (clientId : Text) (bytes : Bytes) :
    AdmitsAt site (nonceKey clientId) bytes := by
  intro name hname
  have hhead := congrArg (fun key : Text => key[2]?) hname
  exact absurd hhead (by
    rw [nonceKey_eq, kvKey_eq]
    simp)

-- A key of more parts than two is no catalog's, and no flag of one.
theorem not_isCatalogYamlKey (app device name : Text) :
    isCatalogYamlKey (fieldKey app device name) = false := by
  have hparts : (fieldKey app device name).splitOn '/' =
      app.splitOn '/' ++ (device.splitOn '/' ++ name.splitOn '/') := by
    rw [fieldKey, List.append_assoc, List.cons_append, List.splitOn_append_cons_self,
      List.splitOn_append_cons_self]
  obtain ⟨a, as, happ⟩ := List.exists_cons_of_ne_nil (List.splitOn_ne_nil '/' app)
  obtain ⟨b, bs, hdevice⟩ := List.exists_cons_of_ne_nil (List.splitOn_ne_nil '/' device)
  obtain ⟨c, cs, hname⟩ := List.exists_cons_of_ne_nil (List.splitOn_ne_nil '/' name)
  have hlength : 3 ≤ ((fieldKey app device name).splitOn '/').length := by
    rw [hparts, happ, hdevice, hname]
    simp only [List.length_append, List.length_cons]
    omega
  unfold isCatalogYamlKey
  split
  · next stash rest hsplit =>
      rw [hsplit] at hlength
      exact absurd hlength (by simp)
  · rfl

end Admits

section Requests

variable {site : Site} {w : World}

-- The request sets nothing under the key of a catalog that the gate would stop. For a device
-- that leaves the flag; an admin's value is not looked at at all.
def Call.HeedsGate (site : Site) (w : World) : Call → Prop
  | .writeKv context key request =>
      request.header? "x-encrypted".toList = some "1".toList →
        checkAcl context.acl ("kv/".toList ++ key) .write = .ok () →
          ∀ body, storedBody request = .ok body → Admits site key body →
            Admits site (flagOf key) (utf8 "1".toList)
  | .setKv username key payload =>
      (adminContextIn site.jsonDepth site.rescueUsers username w.store >>= fun acl =>
          checkAcl acl ("kv/".toList ++ key) .write) = .ok () →
        ∀ packed, (coerceJson site payload.value).bind packOrRaise = .ok packed →
          AdmitsRecord site key packed payload.encrypted
  | _ => True

-- What a request sets under a key of the store, the gate would let in there.
theorem setFlag_admits {key : Text} {encrypted : Bool}
    (h : encrypted → Admits site (flagOf key) (utf8 "1".toList)) :
    Handler.Issues (SetsOnly (AdmitsAt site)) (setFlag key encrypted) := by
  unfold setFlag
  cases encrypted with
  | true => exact issues_setsOnly (admitsAt_encKey (h rfl))
  | false => exact Handler.issues_ask ⟨fun _ _ heq => (nomatch heq), trivial⟩

theorem silent_admits {α : Type} {handler : Handler α}
    (h : handler.Issues (OnlyOverwrites fun _ => False)) :
    handler.Issues (SetsOnly (AdmitsAt site)) :=
  h.mono fun _ hcmd => setsOnly_of_onlyOverwrites hcmd fun _ _ hkey => hkey.elim

theorem delete_admits (keys : List Text) :
    Handler.Issues (SetsOnly (AdmitsAt site)) (Handler.delete keys) :=
  Handler.issues_ask ⟨fun _ _ heq => (nomatch heq), trivial⟩

theorem writeKv_admits {context : Context} {key : Text} {request : Request}
    (h : Call.HeedsGate site w (.writeKv context key request)) :
    Handler.Issues (SetsOnly (AdmitsAt site))
      (writeKv site.hmac site.gate context key request) := by
  refine Handler.issues_check fun _ hacl => Handler.issues_check fun body hbody => ?_
  have hrest : Admits site key body → Handler.Issues (SetsOnly (AdmitsAt site))
      (Handler.set (kvKey key) body >>= fun _ =>
        if request.header? "x-encrypted".toList = some "1".toList then
          Handler.set (encKey key) (utf8 "1".toList) >>= fun _ =>
            signedMsgpack site.hmac context request (statusValue "ok".toList)
        else
          Handler.delete [encKey key] >>= fun _ =>
            signedMsgpack site.hmac context request (statusValue "ok".toList)) := by
    intro hadmits
    refine Handler.issues_bind (issues_setsOnly (admitsAt_kvKey hadmits)) fun _ => ?_
    by_cases hflag : request.header? "x-encrypted".toList = some "1".toList
    · rw [if_pos hflag]
      refine Handler.issues_bind (issues_setsOnly ?_) fun _ =>
        silent_admits (signedMsgpack_issues site.hmac context request _)
      exact admitsAt_encKey (h hflag hacl body hbody hadmits)
    · rw [if_neg hflag]
      exact Handler.issues_bind (delete_admits _) fun _ =>
        silent_admits (signedMsgpack_issues site.hmac context request _)
  by_cases hgate : isCatalogYamlKey key ∧ body ≠ []
  · dsimp only
    rw [if_pos hgate]
    exact Handler.issues_check fun _ hpass => hrest fun _ _ => hpass
  · dsimp only
    rw [if_neg hgate]
    exact hrest fun hkey hbody => absurd ⟨hkey, hbody⟩ hgate

theorem setKv_admits {key : Text} {payload : KvPayload}
    (h : ∀ packed, (coerceJson site payload.value).bind packOrRaise = .ok packed →
      AdmitsRecord site key packed payload.encrypted) :
    Handler.Issues (SetsOnly (AdmitsAt site)) (do
      let data ← Handler.ofExcept (coerceJson site payload.value)
      let packed ← Handler.ofExcept (packOrRaise data)
      Handler.set (kvKey key) packed
      setFlag key payload.encrypted) := by
  refine Handler.issues_check fun data hdata => Handler.issues_check fun packed hpacked => ?_
  obtain ⟨hvalue, hflag⟩ := h packed (by rw [hdata]; exact hpacked)
  exact Handler.issues_bind (issues_setsOnly (admitsAt_kvKey hvalue)) fun _ => setFlag_admits hflag

theorem passes_of_admits {α : Type} {handler : Handler α}
    (h : handler.Issues (SetsOnly (AdmitsAt site))) (hpass : CatalogsPass site w) :
    CatalogsPass site (handler.runOn w).2 :=
  catalogsPass_iff.mpr fun _ _ hget =>
    get_of_setsOnly h admitsAt_nonceKey (catalogsPass_iff.mp hpass) hget

theorem passes_of_map {α β : Type} {handler : Handler α} {f : α → β}
    (h : CatalogsPass site (handler.runOn w).2) : CatalogsPass site ((f <$> handler).runOn w).2 := by
  rw [Handler.runOn_map]
  exact h

theorem admitsAt_fieldKey (app device name : Text) (bytes : Bytes) :
    AdmitsAt site (kvKey (fieldKey app device name)) bytes ∧
      AdmitsAt site (encKey (fieldKey app device name)) bytes := by
  constructor
  · refine admitsAt_kvKey fun hkey => ?_
    rw [not_isCatalogYamlKey] at hkey
    cases hkey
  · rw [encKey_fieldKey]
    refine admitsAt_kvKey fun hkey => ?_
    rw [not_isCatalogYamlKey] at hkey
    cases hkey

-- A request that heeds the gate leaves no catalog that the gate would stop.
theorem request_passes (request : Call) (hpass : CatalogsPass site w)
    (hheeds : Call.HeedsGate site w request) : CatalogsPass site ((request.handler site).runOn w).2 := by
  have hother (hkeys : ∀ key bytes, request.overwrites key → AdmitsAt site key bytes) :
      CatalogsPass site ((request.handler site).runOn w).2 :=
    passes_of_admits ((show (request.handler site).Issues (OnlyOverwrites request.overwrites) from
      request.issues site).mono fun _ hcmd => setsOnly_of_onlyOverwrites hcmd hkeys) hpass
  cases request with
  | writeKv context key request =>
      exact passes_of_map (passes_of_admits (writeKv_admits hheeds) hpass)
  | setKv username key payload =>
      apply passes_of_map
      rw [setKv, Handler.runOn_bind, requireAdminKv_runOn]
      cases hallowed : (adminContextIn site.jsonDepth site.rescueUsers username w.store >>=
          fun acl => checkAcl acl ("kv/".toList ++ key) .write) with
      | error exn => exact hpass
      | ok value => exact passes_of_admits (setKv_admits (hheeds hallowed)) hpass
  | deleteKv context key request =>
      refine passes_of_map (passes_of_admits ?_ hpass)
      exact Handler.issues_bind (Handler.issues_ofExcept _) fun _ =>
        Handler.issues_bind (delete_admits _) fun _ =>
          silent_admits (signedMsgpack_issues site.hmac context request _)
  | adminDeleteKv username key =>
      refine passes_of_map (passes_of_admits ?_ hpass)
      exact Handler.issues_bind (silent_admits (requireAdminKv_issues site username key _))
        fun _ => delete_admits _
  | submitForm username app device form =>
      refine hother ?_
      rintro key bytes ⟨field, -, rfl | rfl⟩
      · exact (admitsAt_fieldKey app device field.1 bytes).1
      · exact (admitsAt_fieldKey app device field.1 bytes).2
  | publish context topic request ttl => exact hother fun _ _ hkey => hkey.elim
  | readKv context key request => exact hother fun _ _ hkey => hkey.elim
  | consume context topic request envelope fuel =>
      refine hother ?_
      rintro key bytes rfl
      exact admitsAt_of_head (by rw [cursorKey_eq]; simp) bytes
  | deleteQueue username topic =>
      refine hother ?_
      rintro key bytes rfl
      exact admitsAt_of_head (by rw [queueKey_eq]; simp) bytes
  | createClient username clientId secret =>
      refine hother ?_
      rintro key bytes (rfl | rfl)
      · exact admitsAt_of_head (by rw [clientSecretKey_eq]; simp) bytes
      · exact admitsAt_of_head (by rw [clientAclKey_eq]; simp) bytes
  | provisionDevice username clientId app secret =>
      refine hother ?_
      rintro key bytes (rfl | rfl | rfl)
      · exact admitsAt_of_head (by rw [clientSecretKey_eq]; simp) bytes
      · exact admitsAt_of_head (by rw [clientAclKey_eq]; simp) bytes
      · exact admitsAt_of_head (by rw [deviceToAppKey_eq]; simp) bytes
  | updateAcl username clientId permissions =>
      refine hother ?_
      rintro key bytes rfl
      exact admitsAt_of_head (by rw [clientAclKey_eq]; simp) bytes
  | revokeClient username clientId =>
      refine hother ?_
      rintro key bytes (rfl | rfl | rfl)
      · exact admitsAt_of_head (by rw [clientSecretKey_eq]; simp) bytes
      · exact admitsAt_of_head (by rw [clientAclKey_eq]; simp) bytes
      · exact admitsAt_of_head (by rw [deviceToAppKey_eq]; simp) bytes
  | updateAdminUserAcl username target permissions =>
      refine hother ?_
      rintro key bytes rfl
      exact admitsAt_of_head (by rw [adminAclKey_eq]; simp) bytes
  | deleteAdminUserAcl username target =>
      refine hother ?_
      rintro key bytes rfl
      exact admitsAt_of_head (by rw [adminAclKey_eq]; simp) bytes
  | restoreKeys username force clients =>
      refine hother ?_
      rintro key bytes ⟨client, -, rfl | rfl⟩
      · exact admitsAt_of_head (by rw [clientSecretKey_eq]; simp) bytes
      · exact admitsAt_of_head (by rw [clientAclKey_eq]; simp) bytes

end Requests

section Restores

variable {site : Site} {cfg : Restoring} {env : BackupEnvelope} {store : Store} {key name : Text}
  {record : KvRecord}

-- The restore gets to the record, lets it in, and does not leave it out for one that is there.
def Installs (cfg : Restoring) (env : BackupEnvelope) (store : Store) (name : Text)
    (record : KvRecord) : Prop :=
  ∃ before, Reaches (restoreItem cfg) env.items before (.kv (.text name) record) (.start store) ∧
    (restoreKv cfg (.text name) record).Accepts name ∧
    ¬ (restoreKv cfg (.text name) record).Skips cfg.forceOverwrite name
      (batch (restoreItem cfg) before (.start store)).2.store

theorem get_setRecord (name key : Text) (record : KvRecord) (s : Store) {bytes : Bytes}
    (h : (setRecord name record s).get (kvKey key) = some bytes) :
    (name = key ∧ bytes = record.value) ∨
      (flagOf name = key ∧ record.encrypted = true ∧ bytes = utf8 "1".toList) ∨
      s.get (kvKey key) = some bytes := by
  have hpeek := congrArg Prod.fst (peek_setRecord_eq name key record s)
  change (setRecord name record s).get (kvKey key) = _ at hpeek
  rw [h] at hpeek
  unfold recordPuts at hpeek
  by_cases hname : name = key
  · rw [if_pos hname] at hpeek
    exact .inl ⟨hname, Option.some.inj hpeek⟩
  · rw [if_neg hname] at hpeek
    by_cases hflag : flagOf name = key
    · rw [if_pos hflag] at hpeek
      cases henc : record.encrypted with
      | true =>
          rw [henc] at hpeek
          exact .inr (.inl ⟨hflag, rfl, Option.some.inj hpeek⟩)
      | false =>
          rw [henc] at hpeek
          cases hpeek
    · rw [if_neg hflag] at hpeek
      exact .inr (.inr hpeek.symm)

theorem restore_passes
    (h : ∀ name record, Installs cfg env store name record →
      AdmitsRecord site name record.value record.encrypted)
    (hpass : ∀ key bytes, store.get (kvKey key) = some bytes → Admits site key bytes) {bytes : Bytes}
    (hget : (applyEnvelope cfg env store).2.get (kvKey key) = some bytes) :
    Admits site key bytes := by
  let inv (s : State) : Prop :=
    ∀ key bytes, s.store.get (kvKey key) = some bytes → Admits site key bytes
  have hinv : inv (batch (restoreItem cfg) env.items (.start store)).2 := by
    refine batch_invariant_of_reaches (fun before item hreaches hbefore key bytes hget => ?_) hpass
    by_cases hkv : item.IsKv
    · cases item with
      | kv str record =>
          by_cases haccepts : ∃ name, (restoreKv cfg str record).Accepts name
          · obtain ⟨name, haccepts⟩ := haccepts
            obtain rfl := Str.encode_ok.mp haccepts.2
            by_cases hskips : (restoreKv cfg (.text name) record).Skips cfg.forceOverwrite name
              (batch (restoreItem cfg) before (.start store)).2.store
            · rw [restoreItem, Item.task, Task.run_skipped haccepts hskips] at hget
              exact hbefore key bytes hget
            · obtain ⟨hvalue, hflag⟩ := h name record ⟨before, hreaches, haccepts, hskips⟩
              have hwritten := (Task.run_written haccepts hskips).2.1
              rw [restoreItem, Item.task, hwritten] at hget
              rcases get_setRecord name key record _ hget with
                ⟨rfl, rfl⟩ | ⟨rfl, henc, rfl⟩ | hsame
              · exact hvalue
              · exact hflag henc
              · exact hbefore key bytes hsame
          · have hidle : (restoreItem cfg (.kv str record)
                (batch (restoreItem cfg) before (.start store)).2).2.store = _ :=
              restoreItem_idle fun name hname => absurd ⟨name, hname⟩ haccepts
            rw [hidle] at hget
            exact hbefore key bytes hget
      | _ => exact absurd hkv id
    · have hpeek := congrArg Prod.fst (@peek_kv_of_not_isKv cfg _ hkv key
        (batch (restoreItem cfg) before (.start store)).2)
      exact hbefore key bytes (hpeek.symm.trans hget)
  exact hinv key bytes hget

end Restores

section Runs

variable {d : Deployment} {op : Operation} {w : World}

-- A step that sets nothing under the key of a catalog that the gate would stop there.
def Operation.HeedsGate (d : Deployment) (op : Operation) (w : World) : Prop :=
  (∀ request, op = .call request → Call.HeedsGate d.site w request) ∧
    ∀ r cfg env, op.restore? d = some r → r.Applies d w cfg env →
      ∀ name record, Installs cfg env w.store name record →
        AdmitsRecord d.site name record.value record.encrypted

theorem apply_passes (hpass : CatalogsPass d.site w) (hheeds : op.HeedsGate d w) :
    CatalogsPass d.site (op.apply d w) := by
  cases hrestore : op.restore? d with
  | some r =>
      rcases restore_cases (w := w) hrestore with ⟨cfg, env, happlies, heq⟩ | ⟨-, heq⟩
      · rw [heq]
        intro key bytes hget
        exact restore_passes (hheeds.2 r cfg env hrestore happlies) hpass hget
      · rw [heq]
        exact hpass
  | none =>
      cases op with
      | call request => exact request_passes request hpass (hheeds.1 request rfl)
      | restoreWhole username force body => cases hrestore
      | restorePerApp username app force body => cases hrestore
      | lookup order name =>
          intro key bytes hget
          have hne : kvKey key ≠ deviceToAppKey name := by
            intro h
            have hhead := congrArg List.head? h
            rw [kvKey_eq, deviceToAppKey_eq] at hhead
            cases hhead
          exact hpass key bytes ((get_lookupDevice hne).symm.trans hget)
      | clock seconds redisMs => exact hpass

-- A loader that reads everything as one plain scalar, under the gate.
def Deployment.gated : Deployment where
  site := { Site.small with
    rescueUsers := [['r']]
    safeLoad := fun text => .ok (.str text)
    gate := validateCatalogYamlUpload (fun text => .ok (.str text)) fun _ => .ok () }
  strOf := fun _ => .text []
  parseId text := (StreamId.parse text).map .exact
  glob := fun _ _ => true

end Runs

end Stra2us.Admin
