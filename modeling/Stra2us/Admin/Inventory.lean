import Stra2us.Acl.Provision
import Stra2us.Admin.Reserved
import Stra2us.Backup.Collect

namespace Stra2us.Admin

open Foundation Server Backup

section Listings

variable (jsonDepth : Nat) (s : Store)

-- `k.split(":")[1]`. A key that matched has at least three parts.
def idOfKey (key : Text) : Text :=
  (key.splitOn ':').getD 1 []

def clientIds : List Text :=
  scanStrings s "client:".toList ":secret".toList

-- `KEYS client:*:secret`
def secretKeys : List Text :=
  (clientIds s).map clientSecretKey

def loadAcl : Option Bytes → Except Exn Value
  | some (byte :: rest) => (loadRecord jsonDepth (byte :: rest)).mapError jsonExn
  | _ => .ok (.dict [])

def listKey (key : Text) : Except Exn (Text × Value) := do
  let clientId := idOfKey key
  let acl ← loadAcl jsonDepth (s.get (clientAclKey clientId))
  .ok (clientId, acl)

def listKeys : Except Exn (List (Text × Value)) :=
  (secretKeys s).mapM (listKey jsonDepth s)

structure BackupEntry where
  clientId : Text
  secret : Option Text
  acl : Value

def secretText : Option Bytes → Except Exn (Option Text)
  | none => .ok none
  | some raw =>
      match utf8Decode raw with
      | some text => .ok (some text)
      | none => .error (.python "UnicodeDecodeError".toList)

def backupKey (key : Text) : Except Exn BackupEntry := do
  let clientId := idOfKey key
  let secret ← secretText (s.get (clientSecretKey clientId))
  let acl ← loadAcl jsonDepth (s.get (clientAclKey clientId))
  .ok ⟨clientId, secret, acl⟩

def backupKeys : Except Exn (List BackupEntry) :=
  (secretKeys s).mapM (backupKey jsonDepth s)

-- The body of a restore is validated as a whole: every secret is a string, every ACL an
-- object.
def BackupEntry.validated (entry : BackupEntry) : Option ClientBackupEntry :=
  match entry.secret, entry.acl with
  | some secret, .dict pairs => some ⟨entry.clientId, secret, .dict pairs⟩
  | _, _ => none

def restorePayload (backup : List BackupEntry) : Option (List ClientBackupEntry) :=
  backup.mapM BackupEntry.validated

end Listings

section Agreement

-- A client is there when its secret is.
def ClientExists (s : Store) (id : Text) : Prop :=
  ∃ raw, s.get (clientSecretKey id) = some raw

-- Its own secret and its own ACL.
def IsClient (jsonDepth : Nat) (s : Store) (id secret : Text) (acl : Value) : Prop :=
  (∃ raw, s.get (clientSecretKey id) = some raw ∧ utf8Decode raw = some secret) ∧
    loadAcl jsonDepth (s.get (clientAclKey id)) = .ok acl

-- The restore of a backup into an empty store leaves the clients of the store it is of.
def Recreates (site : Site) (s : Store) (backup : List BackupEntry) : Prop :=
  ∃ payload, restorePayload backup = some payload ∧
    ∀ username force w, w.store = .empty → MayManage site username w →
      ∃ w', (restoreKeys site username force payload).runOn w = (.ok (), w') ∧
        (∀ id, ClientExists w'.store id ↔ ClientExists s id) ∧
        ∀ id secret acl, IsClient site.jsonDepth w'.store id secret acl ↔
          IsClient site.jsonDepth s id secret acl

-- The three listings agree on the clients that there are.
structure InventoryAgrees (site : Site) (s : Store) : Prop where
  readable : ∀ id, ClientExists s id → ∃ secret acl, IsClient site.jsonDepth s id secret acl
  listed : ∃ listed, listKeys site.jsonDepth s = .ok listed ∧ (listed.map Prod.fst).Nodup ∧
    ∀ id acl, (id, acl) ∈ listed ↔ ∃ secret, IsClient site.jsonDepth s id secret acl
  backedUp : ∃ backup, backupKeys site.jsonDepth s = .ok backup ∧
    (backup.map BackupEntry.clientId).Nodup ∧
    (∀ id secret? acl, ⟨id, secret?, acl⟩ ∈ backup ↔
      ∃ secret, secret? = some secret ∧ IsClient site.jsonDepth s id secret acl) ∧
    Recreates site s backup
  collected : ∃ clients, collectClients site.jsonDepth s none = .ok clients ∧
    ∀ id record, (id, record) ∈ clients.entries ↔ ∃ name secret, id = .text name ∧
      record.secret = .text secret ∧ IsClient site.jsonDepth s name secret record.acl

end Agreement

section Keys

variable {id : Text}

theorem colon_not_mem_idOfKey (id : Text) : ':' ∉ idOfKey (clientSecretKey id) := by
  have hclient : "client:".toList = "client".toList ++ [':'] := by decide
  have hsecret : ":secret".toList = ':' :: "secret".toList := by decide
  have hfree : ':' ∉ "client".toList := by decide
  have hkey (a b : Text) (ha : ':' ∉ a) :
      idOfKey ("client".toList ++ ':' :: (a ++ ':' :: b)) = a := by
    unfold idOfKey
    rw [List.splitOn_append_cons_self_of_not_mem hfree,
      List.splitOn_append_cons_self_of_not_mem ha]
    rfl
  unfold clientSecretKey
  rw [hclient, hsecret, List.append_assoc, List.append_assoc, List.singleton_append]
  by_cases hcolon : ':' ∈ id
  · obtain ⟨a, b, rfl, ha⟩ := List.eq_append_cons_of_mem hcolon
    rw [List.append_assoc, List.cons_append, hkey a _ ha]
    exact ha
  · rw [hkey id _ hcolon]
    exact hcolon

theorem idOfKey_clientSecretKey (h : ':' ∉ id) : idOfKey (clientSecretKey id) = id := by
  have hclient : "client:".toList = "client".toList ++ [':'] := by decide
  have hsecret : ":secret".toList = ':' :: "secret".toList := by decide
  have hfree : ':' ∉ "client".toList := by decide
  unfold clientSecretKey idOfKey
  rw [hclient, hsecret, List.append_assoc, List.append_assoc, List.singleton_append,
    List.splitOn_append_cons_self_of_not_mem hfree, List.splitOn_append_cons_self_of_not_mem h]
  rfl

theorem mem_clientIds {s : Store} : id ∈ clientIds s ↔ ClientExists s id :=
  mem_scanStrings s

theorem nodup_clientIds (s : Store) : (clientIds s).Nodup :=
  nodup_scanStrings s _ _

theorem mem_secretKeys {s : Store} {key : Text} :
    key ∈ secretKeys s ↔ ∃ id, ClientExists s id ∧ key = clientSecretKey id := by
  unfold secretKeys
  simp only [List.mem_map, mem_clientIds]
  exact exists_congr fun id => and_congr_right fun _ => eq_comm

end Keys

section Managing

-- The requests that manage clients one at a time.
inductive Managing
  | create (username clientId secret : Text)
  | provision (username clientId app secret : Text)
  | updateAcl (username clientId : Text) (permissions : List (Text × Text))
  | revoke (username clientId : Text)

def Managing.request : Managing → Call
  | .create username clientId secret => .createClient username clientId secret
  | .provision username clientId app secret => .provisionDevice username clientId app secret
  | .updateAcl username clientId permissions => .updateAcl username clientId permissions
  | .revoke username clientId => .revokeClient username clientId

def Managing.apply (site : Site) (op : Managing) (w : World) : World :=
  ((op.request.handler site).runOn w).2

-- What a client's records are: a secret, and an ACL as it was dumped.
structure KeptAs (site : Site) (s : Store) (id secret : Text) (acl : Value) : Prop where
  secretKept : s.get (clientSecretKey id) = some (utf8 secret)
  aclKept : ∃ raw, dumpRecord site acl = .ok raw ∧ s.get (clientAclKey id) = some raw
  textual : Json.Textual site.jsonDepth acl
  object : ∃ pairs, acl = .dict pairs

-- All clients are kept so, none of them by a reserved id.
def WellKept (site : Site) (s : Store) : Prop :=
  ∀ id, ClientExists s id → id ∉ reservedClientIds ∧ ∃ secret acl, KeptAs site s id secret acl

variable {site : Site} {s : Store} {w : World} {id secret : Text} {acl : Value}

theorem loadAcl_ok {jsonDepth : Nat} {raw : Bytes} (h : loadRecord jsonDepth raw = .ok acl) :
    loadAcl jsonDepth (some raw) = .ok acl := by
  cases raw with
  | nil => exact absurd h not_loadRecord_nil
  | cons byte rest =>
      simp only [loadAcl, h]
      rfl

theorem KeptAs.reads (h : KeptAs site s id secret acl) :
    loadAcl site.jsonDepth (s.get (clientAclKey id)) = .ok acl := by
  obtain ⟨raw, hdump, hget⟩ := h.aclKept
  obtain ⟨raw', hdump', hload⟩ := exists_dumpRecord h.textual
  obtain rfl := Except.ok.inj (hdump.symm.trans hdump')
  rw [hget]
  exact loadAcl_ok hload

theorem KeptAs.isClient_iff (h : KeptAs site s id secret acl) {secret' : Text} {acl' : Value} :
    IsClient site.jsonDepth s id secret' acl' ↔ secret' = secret ∧ acl' = acl := by
  unfold IsClient
  rw [h.reads, h.secretKept]
  simp only [Option.some.injEq, exists_eq_left', utf8Decode_utf8, Except.ok.injEq]
  exact and_congr eq_comm eq_comm

-- A client whose records are as they were is kept as it was.
theorem KeptAs.of_same {s' : Store} (h : KeptAs site s id secret acl)
    (hsecret : s'.get (clientSecretKey id) = s.get (clientSecretKey id))
    (hacl : s'.get (clientAclKey id) = s.get (clientAclKey id)) : KeptAs site s' id secret acl where
  secretKept := hsecret.trans h.secretKept
  aclKept := by
    obtain ⟨raw, hdump, hget⟩ := h.aclKept
    exact ⟨raw, hdump, hacl.trans hget⟩
  textual := h.textual
  object := h.object

-- A request for one client leaves the others as they are.
theorem wellKept_of_one {s' : Store} (h : WellKept site s) (clientId : Text)
    (hsecret : ∀ id ≠ clientId, s'.get (clientSecretKey id) = s.get (clientSecretKey id))
    (hacl : ∀ id ≠ clientId, s'.get (clientAclKey id) = s.get (clientAclKey id))
    (hone : ClientExists s' clientId →
      clientId ∉ reservedClientIds ∧ ∃ secret acl, KeptAs site s' clientId secret acl) :
    WellKept site s' := by
  intro id hexists
  by_cases hid : id = clientId
  · rw [hid] at hexists ⊢
    exact hone hexists
  · obtain ⟨raw, hraw⟩ := hexists
    rw [hsecret id hid] at hraw
    obtain ⟨hfree, secret, acl, hkept⟩ := h id ⟨raw, hraw⟩
    exact ⟨hfree, secret, acl, hkept.of_same (hsecret id hid) (hacl id hid)⟩

theorem textual_emptyAcl (depth : Nat) : Json.Textual (depth + 3) emptyAcl :=
  Acl.textual_permissionsAcl fun _ hmem => absurd hmem List.not_mem_nil

theorem textual_updatedAcl (depth : Nat) (permissions : List (Text × Text)) :
    Json.Textual (depth + 3) (permissionsAcl (permissions.map aclPermission)) := by
  apply Acl.textual_permissionsAcl
  intro perm hperm
  obtain ⟨entry, -, rfl⟩ := List.mem_map.mp hperm
  exact Acl.textual_permission depth entry.1 entry.2

theorem get_withSecret {key : Text} (hne : key ≠ clientSecretKey id) :
    (withSecret id secret w).store.get key = w.store.get key := by
  unfold withSecret
  split
  · simp [hne]
  · rfl

theorem exists_withSecret (h : WellKept site w.store) (clientId secret : Text) :
    ∃ kept, (withSecret clientId secret w).store.get (clientSecretKey clientId) = some (utf8 kept) := by
  unfold withSecret
  split
  · exact ⟨secret, by simp⟩
  · rename_i hnew
    obtain ⟨raw, hraw⟩ := Option.ne_none_iff_exists'.mp hnew
    obtain ⟨-, kept, acl, hkept⟩ := h clientId ⟨raw, hraw⟩
    exact ⟨kept, hkept.secretKept⟩

theorem wellKept_apply (hdepth : 3 ≤ site.jsonDepth) (op : Managing) (h : WellKept site w.store) :
    WellKept site (op.apply site w).store := by
  obtain ⟨depth, hd⟩ : ∃ depth, site.jsonDepth = depth + 3 := ⟨site.jsonDepth - 3, by omega⟩
  cases op with
  | create username clientId secret =>
      change WellKept site ((_ <$> createClient site username clientId secret).runOn w).2.store
      rw [runOn_map_world]
      by_cases hmay : MayManage site username w
      · rw [createClient_runOn hmay]
        cases hreject : rejectIfReserved clientId with
        | error exn => exact h
        | ok value =>
            have htextual : Json.Textual site.jsonDepth emptyAcl := by
              rw [hd]
              exact textual_emptyAcl depth
            obtain ⟨raw, hdump, -⟩ := exists_dumpRecord htextual
            simp only [putAcl, hdump]
            apply wellKept_of_one h clientId
            · intro id hid
              simp [hid]
            · intro id hid
              simp [hid]
            · intro _
              refine ⟨fun hmem => ne_of_rejectIfReserved hmem hreject rfl, secret, emptyAcl, ?_⟩
              exact ⟨by simp, ⟨raw, hdump, by simp⟩, htextual, ⟨_, rfl⟩⟩
      · rw [createClient, manage_of_not hmay]
        exact h
  | provision username clientId app secret =>
      change WellKept site ((_ <$> provisionDevice site username clientId app secret).runOn w).2.store
      rw [runOn_map_world]
      by_cases hmay : MayManage site username w
      · rw [provisionDevice_runOn hmay]
        cases hcheck : checkProvision clientId app with
        | error exn => exact h
        | ok value =>
            have htextual : Json.Textual site.jsonDepth (deviceAcl clientId app) := by
              rw [hd]
              exact Acl.textual_provisionedAcl depth clientId app
            obtain ⟨raw, hdump, -⟩ := exists_dumpRecord htextual
            simp only [hdump]
            have hfree := (Acl.slash_free_of_check hcheck).1
            apply wellKept_of_one h clientId
            · intro id hid
              simp [get_withSecret, hid]
            · intro id hid
              simp [get_withSecret, hid]
            · intro _
              obtain ⟨kept, hkept⟩ := exists_withSecret h clientId secret
              refine ⟨hfree, kept, deviceAcl clientId app, ?_⟩
              exact ⟨by simpa using hkept, ⟨raw, hdump, by simp⟩, htextual, ⟨_, rfl⟩⟩
      · rw [provisionDevice, manage_of_not hmay]
        exact h
  | updateAcl username clientId permissions =>
      change WellKept site ((_ <$> Server.updateAcl site username clientId permissions).runOn w).2.store
      rw [runOn_map_world]
      by_cases hmay : MayManage site username w
      · rw [updateAcl_runOn hmay]
        by_cases hthere : truthy (w.store.get (clientSecretKey clientId))
        · rw [if_pos hthere]
          have htextual : Json.Textual site.jsonDepth
              (permissionsAcl (permissions.map aclPermission)) := by
            rw [hd]
            exact textual_updatedAcl depth permissions
          obtain ⟨raw, hdump, -⟩ := exists_dumpRecord htextual
          simp only [putAcl, hdump]
          apply wellKept_of_one h clientId
          · intro id hid
            simp
          · intro id hid
            simp [hid]
          · intro hexists
            have hbefore : ClientExists w.store clientId := by simpa [ClientExists] using hexists
            obtain ⟨hfree, secret, acl, hkept⟩ := h clientId hbefore
            refine ⟨hfree, secret, permissionsAcl (permissions.map aclPermission), ?_⟩
            exact ⟨by simpa using hkept.secretKept, ⟨raw, hdump, by simp⟩, htextual, ⟨_, rfl⟩⟩
        · rw [if_neg hthere]
          exact h
      · rw [Server.updateAcl, manage_of_not hmay]
        exact h
  | revoke username clientId =>
      change WellKept site ((_ <$> revokeClient site username clientId).runOn w).2.store
      rw [runOn_map_world]
      by_cases hmay : MayManage site username w
      · rw [revokeClient_runOn hmay]
        apply wellKept_of_one h clientId
        · intro id hid
          simp [hid]
        · intro id hid
          simp [hid]
        · intro hexists
          obtain ⟨raw, hraw⟩ := hexists
          simp at hraw
      · rw [revokeClient, manage_of_not hmay]
        exact h

end Managing

section Listed

variable {site : Site} {s : Store} {id secret : Text} {acl : Value}

theorem listKey_kept (hcolon : ':' ∉ id) (h : KeptAs site s id secret acl) :
    listKey site.jsonDepth s (clientSecretKey id) = .ok (id, acl) := by
  unfold listKey
  rw [idOfKey_clientSecretKey hcolon]
  dsimp only
  rw [h.reads]
  rfl

theorem backupKey_kept (hcolon : ':' ∉ id) (h : KeptAs site s id secret acl) :
    backupKey site.jsonDepth s (clientSecretKey id) = .ok ⟨id, some secret, acl⟩ := by
  unfold backupKey
  rw [idOfKey_clientSecretKey hcolon]
  dsimp only
  rw [h.reads, h.secretKept]
  simp only [secretText, utf8Decode_utf8]
  rfl

theorem collectClient_kept (h : KeptAs site s id secret acl) :
    collectClient site.jsonDepth s none id = .ok (some ⟨.text secret, acl⟩) := by
  refine collectClient_ok_iff.mpr ⟨secret, acl, true, ?_, ?_, rfl, rfl⟩
  · rw [h.secretKept]
    exact decodeStr_ok_iff.mpr (utf8Decode_utf8 secret)
  · obtain ⟨raw, hdump, hget⟩ := h.aclKept
    obtain ⟨raw', hdump', hload⟩ := exists_dumpRecord h.textual
    obtain rfl := Except.ok.inj (hdump.symm.trans hdump')
    exact storedAcl_ok_iff.mpr (.inl ⟨raw, hget, hload⟩)

-- A listing that reads each client's records lists each client once.
theorem mapM_secretKeys {α : Type} {f : Text → Except Exn α} {g : Text → α}
    (h : ∀ id, ClientExists s id → f (clientSecretKey id) = .ok (g id)) :
    (secretKeys s).mapM f = .ok ((clientIds s).map g) := by
  unfold secretKeys
  rw [List.mapM_map]
  exact mapM_eq_map fun id hid => h id (mem_clientIds.mp hid)

-- A listing by ids that hold no colon leaves the others out.
theorem colon_free_of_listed {listed : List (Text × Value)}
    (h : listKeys site.jsonDepth s = .ok listed) (hmem : (id, acl) ∈ listed) : ':' ∉ id := by
  obtain ⟨key, hkey, hlist⟩ := mem_of_mapM h hmem
  obtain ⟨other, -, rfl⟩ := mem_secretKeys.mp hkey
  obtain ⟨value, -, hpair⟩ := bind_ok_iff.mp hlist
  obtain ⟨rfl, -⟩ := Prod.mk.inj (Except.ok.inj hpair)
  exact colon_not_mem_idOfKey other

end Listed

section Recreated

variable {site : Site}

theorem restoreEach_cons {client : ClientBackupEntry} {rest : List ClientBackupEntry} {force : Bool}
    {w : World} {raw : Bytes} (hfree : client.clientId ∉ reservedClientIds)
    (hnew : w.store.get (clientSecretKey client.clientId) = none)
    (hdump : dumpRecord site client.acl = .ok raw) :
    (restoreEach site force (client :: rest)).runOn w = (restoreEach site force rest).runOn
      (World.put (World.put w (clientSecretKey client.clientId) (utf8 client.secret))
        (clientAclKey client.clientId) raw) := by
  have hreject : rejectIfReserved client.clientId = .ok () := if_neg hfree
  have hpresent : ¬ (truthy (w.store.get (clientSecretKey client.clientId)) = true ∧ ¬ force = true) := by
    rw [hnew]
    simp [truthy]
  rw [restoreEach, hreject, Handler.runOn_ofExcept_ok_bind]
  change (if truthy (w.store.get (clientSecretKey client.clientId)) = true ∧ ¬ force = true then
    _ else _ : Handler Unit).runOn w = _
  rw [if_neg hpresent, hdump]
  rfl

theorem restoreEach_runOn {clients : List ClientBackupEntry} (force : Bool) (w : World)
    (hnodup : (clients.map ClientBackupEntry.clientId).Nodup)
    (hok : ∀ client ∈ clients, client.clientId ∉ reservedClientIds ∧
      Json.Textual site.jsonDepth client.acl ∧ ∃ pairs, client.acl = .dict pairs)
    (hnew : ∀ client ∈ clients, w.store.get (clientSecretKey client.clientId) = none) :
    ∃ w', (restoreEach site force clients).runOn w = (.ok (), w') ∧
      (∀ client ∈ clients, KeptAs site w'.store client.clientId client.secret client.acl) ∧
      ∀ key, (∀ client ∈ clients, key ≠ clientSecretKey client.clientId ∧
        key ≠ clientAclKey client.clientId) → w'.store.get key = w.store.get key := by
  induction clients generalizing w with
  | nil => exact ⟨w, rfl, fun _ hmem => absurd hmem List.not_mem_nil, fun _ _ => rfl⟩
  | cons client rest ih =>
      rw [List.map_cons, List.nodup_cons] at hnodup
      obtain ⟨hfree, htextual, hobject⟩ := hok client (by simp)
      obtain ⟨raw, hdump, -⟩ := exists_dumpRecord htextual
      have hother : ∀ other ∈ rest, client.clientId ≠ other.clientId := by
        intro other hmem heq
        exact hnodup.1 (heq ▸ List.mem_map_of_mem hmem)
      let w₁ := World.put (World.put w (clientSecretKey client.clientId) (utf8 client.secret))
        (clientAclKey client.clientId) raw
      have hnew₁ : ∀ other ∈ rest, w₁.store.get (clientSecretKey other.clientId) = none := by
        intro other hmem
        simpa [w₁, (hother other hmem).symm] using hnew other (List.mem_cons_of_mem _ hmem)
      obtain ⟨w', hrun, hkept, hframe⟩ :=
        ih w₁ hnodup.2 (fun other hmem => hok other (List.mem_cons_of_mem _ hmem)) hnew₁
      refine ⟨w', ?_, ?_, ?_⟩
      · rw [restoreEach_cons hfree (hnew client (by simp)) hdump]
        exact hrun
      · intro other hmem
        rcases List.mem_cons.mp hmem with rfl | hmem
        · have hsecret : w'.store.get (clientSecretKey other.clientId) = some (utf8 other.secret) := by
            rw [hframe _ fun c hc => ⟨by simpa using hother c hc, by simp⟩]
            simp [w₁]
          have hacl : w'.store.get (clientAclKey other.clientId) = some raw := by
            rw [hframe _ fun c hc => ⟨by simp, by simpa using hother c hc⟩]
            simp [w₁]
          exact ⟨hsecret, ⟨raw, hdump, hacl⟩, htextual, hobject⟩
        · exact hkept other hmem
      · intro key hkey
        obtain ⟨hsecret, hacl⟩ := hkey client (by simp)
        rw [hframe key fun c hc => hkey c (List.mem_cons_of_mem _ hc)]
        simp [w₁, hsecret, hacl]

-- A backup of clients that are kept, put into an empty store, is the same clients.
theorem recreates_of_kept {s : Store} {secret : Text → Text} {acl : Text → Value}
    (hwell : WellKept site s)
    (hkept : ∀ id, ClientExists s id → KeptAs site s id (secret id) (acl id)) :
    Recreates site s ((clientIds s).map fun id => ⟨id, some (secret id), acl id⟩) := by
  let payload : List ClientBackupEntry := (clientIds s).map fun id => ⟨id, secret id, acl id⟩
  refine ⟨payload, ?_, ?_⟩
  · unfold restorePayload
    rw [List.mapM_map]
    apply mapM_eq_map (m := Option)
    intro id hid
    obtain ⟨pairs, hpairs⟩ := (hkept id (mem_clientIds.mp hid)).object
    change BackupEntry.validated ⟨id, some (secret id), acl id⟩ = some ⟨id, secret id, acl id⟩
    rw [hpairs]
    rfl
  · intro username force w hempty hmay
    have hids : payload.map ClientBackupEntry.clientId = clientIds s := by
      simp [payload, Function.comp_def]
    have hnodup : (payload.map ClientBackupEntry.clientId).Nodup := by
      rw [hids]
      exact nodup_clientIds s
    have hmem {client : ClientBackupEntry} (h : client ∈ payload) :
        ClientExists s client.clientId ∧ client.secret = secret client.clientId ∧
          client.acl = acl client.clientId := by
      obtain ⟨id, hid, rfl⟩ := List.mem_map.mp h
      exact ⟨mem_clientIds.mp hid, rfl, rfl⟩
    obtain ⟨w', hrun, hrestored, hframe⟩ := restoreEach_runOn force w hnodup
      (by
        intro client h
        obtain ⟨hexists, -, hacl⟩ := hmem h
        rw [hacl]
        exact ⟨(hwell _ hexists).1, (hkept _ hexists).textual, (hkept _ hexists).object⟩)
      (by
        intro client _
        rw [hempty]
        rfl)
    have hthere {id : Text} (h : ClientExists s id) : KeptAs site w'.store id (secret id) (acl id) :=
      hrestored ⟨id, secret id, acl id⟩ (List.mem_map.mpr ⟨id, mem_clientIds.mpr h, rfl⟩)
    have hgone {id : Text} (h : ¬ ClientExists s id) : ¬ ClientExists w'.store id := by
      rintro ⟨raw, hraw⟩
      rw [hframe, hempty] at hraw
      · cases hraw
      · intro client hclient
        refine ⟨?_, clientSecretKey_ne_clientAclKey⟩
        intro heq
        rw [clientSecretKey_inj.mp heq] at h
        exact h (hmem hclient).1
    refine ⟨w', ?_, ?_, ?_⟩
    · unfold restoreKeys
      rw [manage_of_ok hmay]
      exact hrun
    · intro id
      by_cases h : ClientExists s id
      · exact iff_of_true ⟨_, (hthere h).secretKept⟩ h
      · exact iff_of_false (hgone h) h
    · intro id secret' acl'
      by_cases h : ClientExists s id
      · rw [(hthere h).isClient_iff, (hkept id h).isClient_iff]
      · refine iff_of_false ?_ ?_
        · rintro ⟨⟨raw, hraw, -⟩, -⟩
          exact hgone h ⟨raw, hraw⟩
        · rintro ⟨⟨raw, hraw, -⟩, -⟩
          exact h ⟨raw, hraw⟩

end Recreated

section Inventory

variable {site : Site} {s : Store}

theorem inventoryAgrees_of_colon_free (hwell : WellKept site s)
    (hcolon : ∀ id, ClientExists s id → ':' ∉ id) : InventoryAgrees site s := by
  have hall : ∀ id, ∃ client : Text × Value, ClientExists s id →
      KeptAs site s id client.1 client.2 := by
    intro id
    by_cases h : ClientExists s id
    · obtain ⟨-, secret, acl, hkept⟩ := hwell id h
      exact ⟨(secret, acl), fun _ => hkept⟩
    · exact ⟨([], .none), fun hexists => absurd hexists h⟩
  choose client hkept using hall
  have hclient (id secret : Text) (acl : Value) : IsClient site.jsonDepth s id secret acl ↔
      ClientExists s id ∧ secret = (client id).1 ∧ acl = (client id).2 := by
    constructor
    · intro h
      obtain ⟨raw, hraw, -⟩ := h.1
      exact ⟨⟨raw, hraw⟩, (hkept id ⟨raw, hraw⟩).isClient_iff.mp h⟩
    · rintro ⟨hexists, hsame⟩
      exact (hkept id hexists).isClient_iff.mpr hsame
  constructor
  case readable =>
    intro id hexists
    exact ⟨_, _, (hclient id _ _).mpr ⟨hexists, rfl, rfl⟩⟩
  case listed =>
    refine ⟨_, mapM_secretKeys fun id h => listKey_kept (hcolon id h) (hkept id h), ?_, ?_⟩
    · rw [List.map_map]
      simpa [Function.comp_def] using nodup_clientIds s
    · intro id acl
      simp only [hclient, List.mem_map, mem_clientIds, Prod.mk.injEq]
      constructor
      · rintro ⟨id, hexists, rfl, rfl⟩
        exact ⟨_, hexists, rfl, rfl⟩
      · rintro ⟨secret, hexists, -, rfl⟩
        exact ⟨id, hexists, rfl, rfl⟩
  case backedUp =>
    refine ⟨_, mapM_secretKeys fun id h => backupKey_kept (hcolon id h) (hkept id h), ?_, ?_,
      recreates_of_kept hwell hkept⟩
    · rw [List.map_map]
      simpa [Function.comp_def] using nodup_clientIds s
    · intro id secret? acl
      simp only [hclient, List.mem_map, mem_clientIds, BackupEntry.mk.injEq]
      constructor
      · rintro ⟨id, hexists, rfl, rfl, rfl⟩
        exact ⟨_, rfl, hexists, rfl, rfl⟩
      · rintro ⟨secret, rfl, hexists, rfl, rfl⟩
        exact ⟨id, hexists, rfl, rfl, rfl⟩
  case collected =>
    have hok : ∀ id ∈ clientIds s, ∃ found, collectClient site.jsonDepth s none id = .ok found :=
      fun id hid => ⟨_, collectClient_kept (hkept id (mem_clientIds.mp hid))⟩
    have hcollect := collectEach_eq hok
    refine ⟨_, hcollect, ?_⟩
    intro key record
    refine (mem_collectEach (nodup_clientIds s) hcollect).trans ?_
    constructor
    · rintro ⟨id, hid, rfl, hrecord⟩
      have hexists := mem_clientIds.mp hid
      obtain rfl := Option.some.inj
        (Except.ok.inj ((collectClient_kept (hkept id hexists)).symm.trans hrecord))
      exact ⟨id, _, rfl, rfl, (hclient _ _ _).mpr ⟨hexists, rfl, rfl⟩⟩
    · rintro ⟨id, secret, rfl, hsecret, hown⟩
      obtain ⟨hexists, rfl, hacl⟩ := (hclient _ _ _).mp hown
      refine ⟨id, mem_clientIds.mpr hexists, rfl, ?_⟩
      rw [collectClient_kept (hkept id hexists)]
      obtain ⟨recordSecret, recordAcl⟩ := record
      rw [← hsecret, ← hacl]

-- Of well kept clients, the inventory agrees when no id holds a colon.
theorem inventoryAgrees_iff (hwell : WellKept site s) :
    InventoryAgrees site s ↔ ∀ id, ClientExists s id → ':' ∉ id := by
  constructor
  · intro h id hexists
    obtain ⟨secret, acl, hclient⟩ := h.readable id hexists
    obtain ⟨listed, hlist, -, hmem⟩ := h.listed
    exact colon_free_of_listed hlist ((hmem id acl).mpr ⟨secret, hclient⟩)
  · exact inventoryAgrees_of_colon_free hwell

end Inventory

section Runs

variable {site : Site} {w : World} {id : Text}

-- A session that may manage clients creates this one, or provisions it.
def Managing.Creates (site : Site) (w : World) (id : Text) : Managing → Prop
  | .create username clientId _ =>
      clientId = id ∧ MayManage site username w ∧ rejectIfReserved id = .ok ()
  | .provision username clientId app _ =>
      clientId = id ∧ MayManage site username w ∧ checkProvision id app = .ok ()
  | _ => False

theorem get_putAcl {key : Text} {acl : Value} (h : key ≠ clientAclKey id) :
    (putAcl site id acl w).2.store.get key = w.store.get key := by
  unfold putAcl
  split
  · simp [h]
  · rfl

theorem exists_apply {op : Managing} (h : ClientExists (op.apply site w).store id) :
    ClientExists w.store id ∨ op.Creates site w id := by
  by_contra hnot
  rw [not_or] at hnot
  obtain ⟨hbefore, hcreates⟩ := hnot
  refine hbefore ?_
  obtain ⟨raw, hraw⟩ := h
  refine ⟨raw, ?_⟩
  rw [← hraw]
  cases op with
  | create username clientId secret =>
      change _ = ((_ <$> createClient site username clientId secret).runOn w).2.store.get _
      rw [runOn_map_world]
      by_cases hmay : MayManage site username w
      · rw [createClient_runOn hmay]
        cases hreject : rejectIfReserved clientId with
        | error exn => rfl
        | ok value =>
            have hne : id ≠ clientId := by
              rintro rfl
              exact hcreates ⟨rfl, hmay, hreject⟩
            rw [get_putAcl clientSecretKey_ne_clientAclKey]
            simp [hne]
      · rw [createClient, manage_of_not hmay]
  | provision username clientId app secret =>
      change _ = ((_ <$> provisionDevice site username clientId app secret).runOn w).2.store.get _
      rw [runOn_map_world]
      by_cases hmay : MayManage site username w
      · rw [provisionDevice_runOn hmay]
        cases hcheck : checkProvision clientId app with
        | error exn => rfl
        | ok value =>
            have hne : id ≠ clientId := by
              rintro rfl
              exact hcreates ⟨rfl, hmay, hcheck⟩
            have hkey : clientSecretKey id ≠ clientSecretKey clientId := by simpa using hne
            cases dumpRecord site (deviceAcl clientId app) with
            | error exn => exact (get_withSecret hkey).symm
            | ok raw => simp [get_withSecret hkey]
      · rw [provisionDevice, manage_of_not hmay]
  | updateAcl username clientId permissions =>
      change _ = ((_ <$> Server.updateAcl site username clientId permissions).runOn w).2.store.get _
      rw [runOn_map_world]
      by_cases hmay : MayManage site username w
      · rw [updateAcl_runOn hmay]
        split
        · rw [get_putAcl clientSecretKey_ne_clientAclKey]
        · rfl
      · rw [Server.updateAcl, manage_of_not hmay]
  | revoke username clientId =>
      change ((_ <$> revokeClient site username clientId).runOn w).2.store.get _ = _ at hraw
      change _ = ((_ <$> revokeClient site username clientId).runOn w).2.store.get _
      rw [runOn_map_world] at hraw ⊢
      by_cases hmay : MayManage site username w
      · rw [revokeClient_runOn hmay] at hraw ⊢
        by_cases hid : id = clientId
        · simp [hid] at hraw
        · simp [hid]
      · rw [revokeClient, manage_of_not hmay]

theorem exists_of_creates {op : Managing} (h : op.Creates site w id) :
    ClientExists (op.apply site w).store id := by
  cases op with
  | create username clientId secret =>
      obtain ⟨rfl, hmay, hreject⟩ := h
      change ClientExists ((_ <$> createClient site username clientId secret).runOn w).2.store _
      rw [runOn_map_world, createClient_runOn hmay, hreject]
      refine ⟨utf8 secret, ?_⟩
      rw [get_putAcl clientSecretKey_ne_clientAclKey]
      simp
  | provision username clientId app secret =>
      obtain ⟨rfl, hmay, hcheck⟩ := h
      change ClientExists ((_ <$> provisionDevice site username clientId app secret).runOn w).2.store _
      rw [runOn_map_world, provisionDevice_runOn hmay, hcheck]
      have hthere : ∃ raw, (withSecret clientId secret w).store.get (clientSecretKey clientId) =
          some raw := by
        unfold withSecret
        split
        · exact ⟨utf8 secret, by simp⟩
        · rename_i hold
          exact Option.ne_none_iff_exists'.mp hold
      obtain ⟨raw, hraw⟩ := hthere
      refine ⟨raw, ?_⟩
      cases dumpRecord site (deviceAcl clientId app) with
      | error exn => exact hraw
      | ok acl => simpa using hraw
  | updateAcl username clientId permissions => exact h.elim
  | revoke username clientId => exact h.elim

-- In a run of such requests the inventory agrees throughout exactly when none of them
-- creates a client whose id holds a colon.
theorem inventory_agrees_iff (site : Site) (hdepth : 3 ≤ site.jsonDepth) (ops : List Managing) :
    Always (Managing.apply site) (fun w => InventoryAgrees site w.store) ops World.empty ↔
      Throughout (Managing.apply site) (fun op w => ∀ id, op.Creates site w id → ':' ∉ id) ops
        World.empty := by
  have hempty : WellKept site World.empty.store := by
    rintro id ⟨raw, hraw⟩
    cases hraw
  have hfree : InventoryAgrees site World.empty.store := by
    apply inventoryAgrees_of_colon_free hempty
    rintro id ⟨raw, hraw⟩
    cases hraw
  refine @always_iff_throughout_of Managing World (Managing.apply site)
    (fun w => InventoryAgrees site w.store) _ (fun w => WellKept site w.store)
    (fun op w => wellKept_apply hdepth op) ?_ ops World.empty hempty hfree
  intro op w hwell hagrees
  rw [inventoryAgrees_iff hwell] at hagrees
  rw [inventoryAgrees_iff (wellKept_apply hdepth op hwell)]
  constructor
  · intro hafter id hcreates
    exact hafter id (exists_of_creates hcreates)
  · intro hnone id hexists
    rcases exists_apply hexists with hbefore | hcreates
    · exact hagrees id hbefore
    · exact hnone id hcreates

-- One client, by a name without a colon.
theorem inventory_agrees_plain :
    Always (Managing.apply Deployment.small.site)
      (fun w => InventoryAgrees Deployment.small.site w.store)
      [.create ['r'] ['c'] ['f', 'f']] World.empty := by
  have hdepth : 3 ≤ Deployment.small.site.jsonDepth := by decide
  refine (inventory_agrees_iff Deployment.small.site hdepth _).mpr ⟨?_, trivial⟩
  rintro id ⟨rfl, -⟩
  decide

-- A name with a colon is cut short.
theorem inventory_differs :
    ¬ Always (Managing.apply Deployment.small.site)
      (fun w => InventoryAgrees Deployment.small.site w.store)
      [.create ['r'] ['a', ':', 'b'] ['f', 'f']] World.empty := by
  rintro ⟨-, hagrees⟩
  have hcreates : Managing.Creates Deployment.small.site World.empty ['a', ':', 'b']
      (.create ['r'] ['a', ':', 'b'] ['f', 'f']) := ⟨rfl, rfl, by decide⟩
  have hexists := exists_of_creates hcreates
  obtain ⟨secret, acl, hclient⟩ := hagrees.readable _ hexists
  obtain ⟨listed, hlist, -, hmem⟩ := hagrees.listed
  exact colon_free_of_listed hlist ((hmem _ acl).mpr ⟨secret, hclient⟩) (by decide)

end Runs

end Stra2us.Admin
