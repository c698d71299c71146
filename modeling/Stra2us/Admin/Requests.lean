import Stra2us.Admin.Operation
import Stra2us.Foundation.JsonDocument

namespace Stra2us.Admin

open Foundation Server Backup

def World.put (w : World) (key : Text) (value : Bytes) : World :=
  { w with store := w.store.set key value }

def World.remove (w : World) (key : Text) : World :=
  { w with store := w.store.delete [key] }

@[simp] theorem get_put (w : World) (key other : Text) (value : Bytes) :
    (World.put w key value).store.get other = if other = key then some value else w.store.get other :=
  Store.get_set _ _ _ _

@[simp] theorem get_remove (w : World) (key other : Text) :
    (World.remove w key).store.get other = if other = key then none else w.store.get other := by
  simp [World.remove, Store.get_delete]

section Keys

variable {a b : Text}

@[simp] theorem clientSecretKey_inj : clientSecretKey a = clientSecretKey b ↔ a = b := by
  constructor
  · intro h
    exact List.append_cancel_left (List.append_cancel_right h)
  · rintro rfl
    rfl

@[simp] theorem clientAclKey_inj : clientAclKey a = clientAclKey b ↔ a = b := by
  constructor
  · intro h
    exact List.append_cancel_left (List.append_cancel_right h)
  · rintro rfl
    rfl

@[simp] theorem deviceToAppKey_inj : deviceToAppKey a = deviceToAppKey b ↔ a = b := by
  constructor
  · intro h
    exact List.append_cancel_left h
  · rintro rfl
    rfl

@[simp] theorem clientSecretKey_ne_clientAclKey : clientSecretKey a ≠ clientAclKey b :=
  Slot.clientSecretKey_ne_clientAclKey a b

@[simp] theorem clientAclKey_ne_clientSecretKey : clientAclKey a ≠ clientSecretKey b :=
  (Slot.clientSecretKey_ne_clientAclKey b a).symm

@[simp] theorem clientSecretKey_ne_deviceToAppKey : clientSecretKey a ≠ deviceToAppKey b := nofun

@[simp] theorem clientAclKey_ne_deviceToAppKey : clientAclKey a ≠ deviceToAppKey b := nofun

@[simp] theorem deviceToAppKey_ne_clientSecretKey : deviceToAppKey a ≠ clientSecretKey b := nofun

@[simp] theorem deviceToAppKey_ne_clientAclKey : deviceToAppKey a ≠ clientAclKey b := nofun

end Keys

section Requests

variable {site : Site} {username clientId app secret : Text} {w : World}

-- The session may manage clients.
def MayManage (site : Site) (username : Text) (w : World) : Prop :=
  superuserIn site.jsonDepth site.rescueUsers username w.store = .ok ()

def emptyAcl : Value := permissionsAcl []

def deviceAcl (clientId app : Text) : Value :=
  permissionsAcl [permission (app ++ '/' :: clientId) "rw".toList,
    permission (app ++ "/public".toList) "rw".toList]

-- Writing a client's ACL, which fails where it nests too deep.
def putAcl (site : Site) (clientId : Text) (acl : Value) (w : World) : Except Exn Unit × World :=
  match dumpRecord site acl with
  | .ok raw => (.ok (), World.put w (clientAclKey clientId) raw)
  | .error exn => (.error exn, w)

theorem manage_runOn {α : Type} (f : Unit → Handler α) (w : World) :
    ((requireAdminSuperuser site.jsonDepth site.rescueUsers username >>= f).runOn w) =
      match superuserIn site.jsonDepth site.rescueUsers username w.store with
      | .ok () => (f ()).runOn w
      | .error exn => (.error exn, w) := by
  rw [Handler.runOn_bind, requireAdminSuperuser_runOn]
  cases superuserIn site.jsonDepth site.rescueUsers username w.store with
  | ok value => rfl
  | error exn => rfl

theorem manage_of_ok {α : Type} {f : Unit → Handler α} (h : MayManage site username w) :
    (requireAdminSuperuser site.jsonDepth site.rescueUsers username >>= f).runOn w = (f ()).runOn w := by
  rw [manage_runOn, h]

theorem manage_of_not {α : Type} {f : Unit → Handler α} (h : ¬ MayManage site username w) :
    ((requireAdminSuperuser site.jsonDepth site.rescueUsers username >>= f).runOn w).2 = w := by
  rw [manage_runOn]
  cases hsuper : superuserIn site.jsonDepth site.rescueUsers username w.store with
  | ok value => exact absurd hsuper h
  | error exn => rfl

theorem putAcl_runOn (acl : Value) : (do
    let raw ← Handler.ofExcept (dumpRecord site acl)
    Handler.set (clientAclKey clientId) raw : Handler Unit).runOn w = putAcl site clientId acl w := by
  unfold putAcl
  cases dumpRecord site acl with
  | ok raw => rfl
  | error exn => rfl

-- An ACL that is not too deep is written, and reads back.
theorem exists_dumpRecord {acl : Value} (h : Json.Textual site.jsonDepth acl) :
    ∃ raw, dumpRecord site acl = .ok raw ∧ loadRecord site.jsonDepth raw = .ok acl := by
  obtain ⟨text, hdumps, hloads⟩ := h.loads_dumps
  refine ⟨utf8 text, ?_, ?_⟩
  · simp only [dumpRecord, hdumps]
  · simp only [loadRecord, utf8Decode_utf8, hloads]

theorem createClient_runOn (h : MayManage site username w) :
    (createClient site username clientId secret).runOn w =
      match rejectIfReserved clientId with
      | .ok () => putAcl site clientId emptyAcl (World.put w (clientSecretKey clientId) (utf8 secret))
      | .error exn => (.error exn, w) := by
  unfold createClient
  rw [manage_of_ok h]
  cases rejectIfReserved clientId with
  | error exn => rfl
  | ok value => exact putAcl_runOn emptyAcl

-- A client keeps its secret when it is provisioned again.
def withSecret (clientId secret : Text) (w : World) : World :=
  if w.store.get (clientSecretKey clientId) = none then
    World.put w (clientSecretKey clientId) (utf8 secret)
  else w

theorem provisionDevice_runOn (h : MayManage site username w) :
    (provisionDevice site username clientId app secret).runOn w =
      match checkProvision clientId app with
      | .error exn => (.error exn, w)
      | .ok () =>
          match dumpRecord site (deviceAcl clientId app) with
          | .error exn => (.error exn, withSecret clientId secret w)
          | .ok raw => (.ok (), World.put
              (World.put (withSecret clientId secret w) (clientAclKey clientId) raw)
              (deviceToAppKey clientId) (utf8 app)) := by
  unfold provisionDevice
  rw [manage_of_ok h]
  cases checkProvision clientId app with
  | error exn => rfl
  | ok value =>
      have hrest (w : World) : (do
          let raw ← Handler.ofExcept (dumpRecord site (deviceAcl clientId app))
          Handler.set (clientAclKey clientId) raw
          Handler.set (deviceToAppKey clientId) (utf8 app) : Handler Unit).runOn w =
            match dumpRecord site (deviceAcl clientId app) with
            | .error exn => (.error exn, w)
            | .ok raw => (.ok (), World.put (World.put w (clientAclKey clientId) raw)
                (deviceToAppKey clientId) (utf8 app)) := by
        cases dumpRecord site (deviceAcl clientId app) with
        | error exn => rfl
        | ok raw => rfl
      rw [Handler.runOn_ofExcept_ok_bind]
      change (if w.store.get (clientSecretKey clientId) = none then _ else _ : Handler Unit).runOn w = _
      unfold withSecret
      by_cases hnew : w.store.get (clientSecretKey clientId) = none
      · rw [if_pos hnew, if_pos hnew]
        exact hrest (World.put w (clientSecretKey clientId) (utf8 secret))
      · rw [if_neg hnew, if_neg hnew]
        exact hrest w

theorem updateAcl_runOn {permissions : List (Text × Text)} (h : MayManage site username w) :
    (updateAcl site username clientId permissions).runOn w =
      if truthy (w.store.get (clientSecretKey clientId)) then
        putAcl site clientId (permissionsAcl (permissions.map aclPermission)) w
      else (.error (.http 404 "Client not found".toList), w) := by
  unfold updateAcl
  rw [manage_of_ok h]
  change (if truthy (w.store.get (clientSecretKey clientId)) then _ else _ : Handler Unit).runOn w = _
  by_cases hthere : truthy (w.store.get (clientSecretKey clientId))
  · rw [if_pos hthere, if_pos hthere]
    exact putAcl_runOn _
  · rw [if_neg hthere, if_neg hthere]
    rfl

theorem revokeClient_runOn (h : MayManage site username w) :
    (revokeClient site username clientId).runOn w = (.ok (), World.remove (World.remove
      (World.remove w (clientSecretKey clientId)) (clientAclKey clientId))
      (deviceToAppKey clientId)) := by
  unfold revokeClient
  rw [manage_of_ok h]
  rfl

end Requests

end Stra2us.Admin
