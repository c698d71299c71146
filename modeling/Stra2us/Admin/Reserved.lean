import Stra2us.Admin.Requests
import Stra2us.Backup.Grants

namespace Stra2us.Admin

open Foundation Server Backup

section Brings

variable {cfg : Restoring} {env : BackupEnvelope} {store : Store} {id secret : Text}

-- The restore gets to the entry of this client, its filter lets the entry through, and its
-- secret is a string that can be written.
def Brings (cfg : Restoring) (env : BackupEnvelope) (store : Store) (id secret : Text) : Prop :=
  ∃ before acl after, env.items = before ++ .client (.text id) ⟨.text secret, acl⟩ :: after ∧
    (∀ item ∈ before, item.Fits cfg store) ∧ cfg.refuses (clientMatchesApp acl) = .ok false ∧
    (truthy (store.get (clientSecretKey id)) → cfg.forceOverwrite)

theorem get_of_brings (h : Brings cfg env store id secret) :
    (applyEnvelope cfg env store).2.get (clientSecretKey id) = some (utf8 secret) := by
  obtain ⟨before, acl, after, hsplit, hbefore, hpass, hforce⟩ := h
  let item : Item := .client (.text id) ⟨.text secret, acl⟩
  let slot : Slot := .secret id
  have hslot : slot ∈ item.slots := by simp [item, slot, Item.slots]
  have hkv : ¬ slot.IsKv := by simp [slot, Slot.IsKv]
  have haccepts : (item.task cfg).Accepts id := ⟨hpass, rfl⟩
  have hreaches : Reaches (restoreItem cfg) env.items before item (.start store) :=
    reaches_iff_fits.mpr ⟨⟨after, hsplit⟩, hbefore⟩
  let s := (batch (restoreItem cfg) before (.start store)).2
  have hsame : s.store.get (clientSecretKey id) = store.get (clientSecretKey id) :=
    congrArg Prod.fst (peek_before hreaches hslot hkv)
  have hskips : ¬ (item.task cfg).Skips cfg.forceOverwrite id s.store := by
    rintro ⟨hpresent, hno⟩
    have htruthy : truthy (s.store.get (clientSecretKey id)) = true := hpresent
    rw [hsame] at htruthy
    rw [hforce htruthy] at hno
    cases hno
  have hafter := peek_after hreaches hslot hkv
  rw [restoreItem_written haccepts hskips] at hafter
  have hleaves : (slot, (some (utf8 secret), s.store.stream? (clientSecretKey id))) ∈
      item.leaves cfg s.store := List.mem_cons_self
  rw [Item.peek_leaves haccepts hleaves] at hafter
  exact congrArg Prod.fst hafter

-- A secret that is not as it was has been brought.
theorem brings_of_changed (hchanged : (applyEnvelope cfg env store).2.get (clientSecretKey id) ≠
    store.get (clientSecretKey id)) : ∃ secret, Brings cfg env store id secret := by
  let slot : Slot := .secret id
  have hkv : ¬ slot.IsKv := by simp [slot, Slot.IsKv]
  have hpeek : (applyEnvelope cfg env store).2.peek slot.key ≠ store.peek slot.key :=
    fun hsame => hchanged (congrArg Prod.fst hsame)
  obtain ⟨before, item, hreaches, hslot⟩ := exists_reaches_of_changed hkv hpeek
  rw [peek_after hreaches hslot hkv, ← peek_before hreaches hslot hkv] at hpeek
  obtain ⟨name, haccepts, hskips, hwrite⟩ := writes_of_changed hpeek
  obtain ⟨⟨after, hsplit⟩, hbefore⟩ := reaches_iff_fits.mp hreaches
  have hlabel : item.label = .client (.text id) := label_of_mem_slots hslot hkv
  cases item with
  | client cid record =>
      obtain rfl : cid = .text id := Label.client.inj hlabel
      obtain rfl : name = id := (Except.ok.inj haccepts.2).symm
      obtain ⟨secret, acl⟩ := record
      cases secret with
      | surrogates units => exact absurd rfl hwrite
      | text secret =>
          refine ⟨secret, before, acl, after, hsplit, hbefore, haccepts.1, ?_⟩
          intro htruthy
          by_contra hforce
          refine hskips ⟨?_, by simpa using hforce⟩
          change truthy (_ : Option Bytes) = true
          rw [← htruthy]
          exact congrArg (fun p => truthy p.1) (peek_before hreaches hslot hkv)
  | _ => cases hlabel

end Brings

section Reserved

variable {d : Deployment} {op : Operation} {w : World}

-- No client goes by a reserved id.
def NoneReserved (w : World) : Prop :=
  ∀ id ∈ reservedClientIds, w.store.get (clientSecretKey id) = none

-- A restore that is let in and brings a client by a reserved id.
def Operation.MintsReserved (d : Deployment) (op : Operation) (w : World) : Prop :=
  ∃ r cfg env, op.restore? d = some r ∧ r.Applies d w cfg env ∧
    ∃ id ∈ reservedClientIds, ∃ secret, Brings cfg env w.store id secret

theorem ne_of_rejectIfReserved {clientId id : Text} (hid : id ∈ reservedClientIds)
    (h : rejectIfReserved clientId = .ok ()) : id ≠ clientId := by
  rintro rfl
  rw [rejectIfReserved, if_pos hid] at h
  cases h

theorem rejectIfReserved_of_mem {id : Text} (h : id ∈ reservedClientIds) :
    ∃ exn, rejectIfReserved id = .error exn := by
  rw [rejectIfReserved, if_pos h]
  exact ⟨_, rfl⟩

theorem checkProvision_of_mem {id app : Text} (h : id ∈ reservedClientIds) :
    ∃ exn, checkProvision id app = .error exn := by
  obtain ⟨exn, hexn⟩ := rejectIfReserved_of_mem h
  unfold checkProvision
  rw [hexn]
  exact ⟨exn, rfl⟩

theorem clientSecretKey_ne_nonceKey (id clientId : Text) :
    clientSecretKey id ≠ nonceKey clientId := by
  intro h
  have hhead := congrArg List.head? h
  cases hhead

-- The requests that may write or remove the secret of a client.
theorem overwrites_secret {request : Call} {id : Text}
    (h : request.overwrites (clientSecretKey id)) :
    (∃ username secret, request = .createClient username id secret) ∨
    (∃ username app secret, request = .provisionDevice username id app secret) ∨
    (∃ username, request = .revokeClient username id) ∨
    ∃ username force clients, request = .restoreKeys username force clients := by
  have hslot (slot : Slot) (heq : clientSecretKey id = slot.key) : slot = .secret id :=
    (Slot.key_injective (show (Slot.secret id).key = slot.key from heq)).symm
  have hkv {key : Text} (heq : clientSecretKey id = kvKey key ∨ clientSecretKey id = encKey key) :
      False := by
    rcases heq with heq | heq
    · cases hslot (.kv key) heq
    · cases hslot (.flag key) (by rw [Slot.key_flag]; exact heq)
  cases request with
  | publish context topic request ttl => exact False.elim h
  | consume context topic request envelope fuel =>
      have hhead := congrArg (fun key => key.drop 1 |>.head?) h
      cases hhead
  | writeKv context key request => exact (hkv h).elim
  | readKv context key request => exact False.elim h
  | deleteKv context key request => exact (hkv h).elim
  | setKv username key payload => exact (hkv h).elim
  | adminDeleteKv username key => exact (hkv h).elim
  | deleteQueue username topic => cases hslot (.queue topic) h
  | submitForm username app device form =>
      obtain ⟨field, -, hfield⟩ := h
      exact (hkv hfield).elim
  | createClient username clientId secret =>
      rcases h with heq | heq
      · obtain rfl := Slot.secret.inj (hslot (.secret clientId) heq)
        exact .inl ⟨username, secret, rfl⟩
      · cases hslot (.acl clientId) heq
  | provisionDevice username clientId app secret =>
      rcases h with heq | heq | heq
      · obtain rfl := Slot.secret.inj (hslot (.secret clientId) heq)
        exact .inr (.inl ⟨username, app, secret, rfl⟩)
      · cases hslot (.acl clientId) heq
      · cases hslot (.deviceToApp clientId) heq
  | updateAcl username clientId permissions => cases hslot (.acl clientId) h
  | revokeClient username clientId =>
      rcases h with heq | heq | heq
      · obtain rfl := Slot.secret.inj (hslot (.secret clientId) heq)
        exact .inr (.inr (.inl ⟨username, rfl⟩))
      · cases hslot (.acl clientId) heq
      · cases hslot (.deviceToApp clientId) heq
  | updateAdminUserAcl username target permissions => cases hslot (.adminAcl target) h
  | deleteAdminUserAcl username target => cases hslot (.adminAcl target) h
  | restoreKeys username force clients => exact .inr (.inr (.inr ⟨username, force, clients, rfl⟩))

theorem runOn_map_world {α β : Type} (handler : Handler α) (f : α → β) :
    ((f <$> handler).runOn w).2 = (handler.runOn w).2 := by
  rw [Handler.runOn_map]

-- The guard is before every write of a request that creates clients.
theorem request_keeps (request : Call) (h : NoneReserved w) :
    NoneReserved ((request.handler d.site).runOn w).2 := by
  intro id hid
  have hkeep (keys : Text → Prop) {α : Type} {handler : Handler α}
      (hissues : handler.Issues (OnlyOverwrites keys)) (hkeys : ¬ keys (clientSecretKey id)) :
      (handler.runOn w).2.store.get (clientSecretKey id) = none := by
    rw [Handler.get_of_issues hissues hkeys (clientSecretKey_ne_nonceKey id)]
    exact h id hid
  by_cases hover : request.overwrites (clientSecretKey id)
  · rcases overwrites_secret hover with ⟨username, secret, rfl⟩ | ⟨username, app, secret, rfl⟩ |
      ⟨username, rfl⟩ | ⟨username, force, clients, rfl⟩
    · obtain ⟨exn, hexn⟩ := rejectIfReserved_of_mem hid
      rw [Call.handler, runOn_map_world]
      by_cases hmay : MayManage d.site username w
      · rw [createClient_runOn hmay, hexn]
        exact h id hid
      · rw [createClient, manage_of_not hmay]
        exact h id hid
    · obtain ⟨exn, hexn⟩ : ∃ exn, checkProvision id app = .error exn := checkProvision_of_mem hid
      rw [Call.handler, runOn_map_world]
      by_cases hmay : MayManage d.site username w
      · rw [provisionDevice_runOn hmay, hexn]
        exact h id hid
      · rw [provisionDevice, manage_of_not hmay]
        exact h id hid
    · rw [Call.handler, runOn_map_world]
      by_cases hmay : MayManage d.site username w
      · rw [revokeClient_runOn hmay]
        simp
      · rw [revokeClient, manage_of_not hmay]
        exact h id hid
    · rw [Call.handler, runOn_map_world]
      apply hkeep (fun key => key ≠ clientSecretKey id) _ (by simp)
      refine Handler.issues_bind (requireAdminSuperuser_issues d.site username) fun _ => ?_
      apply restoreEach_issues
      · intro client _ hfree heq
        exact ne_of_rejectIfReserved hid hfree (clientSecretKey_inj.mp heq).symm
      · intro client _ heq
        exact clientAclKey_ne_clientSecretKey heq
  · exact hkeep request.overwrites (request.issues d.site) hover

-- A step that mints no reserved id is one that no such restore takes.
theorem apply_keeps_iff (op : Operation) (w : World) (h : NoneReserved w) :
    NoneReserved (op.apply d w) ↔ ¬ op.MintsReserved d w := by
  have hkept (hsame : NoneReserved (op.apply d w)) (hnot : op.restore? d = none) :
      NoneReserved (op.apply d w) ↔ ¬ op.MintsReserved d w := by
    refine iff_of_true hsame ?_
    rintro ⟨r, cfg, env, hr, -⟩
    rw [hnot] at hr
    cases hr
  cases hrestore : op.restore? d with
  | none =>
      refine hkept ?_ hrestore
      cases op with
      | call request => exact request_keeps request h
      | restoreWhole username force body => cases hrestore
      | restorePerApp username app force body => cases hrestore
      | lookup order name =>
          intro id hid
          have hne : clientSecretKey id ≠ deviceToAppKey name :=
            clientSecretKey_ne_deviceToAppKey
          exact (get_lookupDevice hne).trans (h id hid)
      | clock seconds redisMs => exact h
  | some r =>
      rcases restore_cases (w := w) hrestore with ⟨cfg, env, happlies, heq⟩ | ⟨hnone, heq⟩
      · rw [heq]
        constructor
        · rintro hafter ⟨r', cfg', env', hr', ⟨hsuper, haccepted, rfl⟩, id, hid, secret, hbrings⟩
          obtain rfl := Option.some.inj (hrestore.symm.trans hr')
          obtain rfl := Except.ok.inj (happlies.2.1.symm.trans haccepted)
          rw [← happlies.2.2] at hbrings
          have hget := get_of_brings hbrings
          have hafter' := hafter id hid
          rw [hget] at hafter'
          cases hafter'
        · intro hnot id hid
          by_contra hget
          obtain ⟨secret, hbrings⟩ : ∃ secret, Brings cfg env w.store id secret :=
            brings_of_changed fun hsame => hget (hsame.trans (h id hid))
          exact hnot ⟨r, cfg, env, hrestore, happlies, id, hid, secret, hbrings⟩
      · rw [heq]
        refine iff_of_true h ?_
        rintro ⟨r', cfg, env, hr', happlies, -⟩
        obtain rfl := Option.some.inj (hrestore.symm.trans hr')
        exact hnone cfg env happlies

-- No run mints a reserved id exactly when none of its restores brings one.
theorem reserved_never_minted_iff (d : Deployment) (ops : List Operation) :
    Always (Operation.apply d) NoneReserved ops World.empty ↔
      Throughout (Operation.apply d) (fun op w => ¬ op.MintsReserved d w) ops World.empty :=
  always_iff_throughout apply_keeps_iff fun _ _ => rfl

-- A whole dump with one client, under the reserved name.
def publicDump : Value :=
  object [("stra2us_backup_version".toList, .int 1), ("dump_kind".toList, .str "whole".toList),
    ("data".toList, object [("clients".toList, object [("public".toList,
      object [("secret".toList, .str ['f', 'f']), ("acl".toList, emptyAcl)])])])]

-- The restore mints it.
theorem public_minted :
    ¬ Always (Operation.apply .small) NoneReserved [.restoreWhole ['r'] false (.ok publicDump)]
      World.empty := by
  rintro ⟨-, hlast⟩
  have hget : ((Operation.restoreWhole ['r'] false (.ok publicDump)).apply .small
      World.empty).store.get (clientSecretKey "public".toList) = some (utf8 ['f', 'f']) := rfl
  have hnone := hlast "public".toList (by simp [reservedClientIds])
  rw [hget] at hnone
  cases hnone

end Reserved

end Stra2us.Admin
