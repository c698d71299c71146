import Stra2us.Acl.Provision
import Stra2us.Admin.Vouched
import Stra2us.Server.Uses

namespace Stra2us.Admin

open Foundation Server Backup

section Frames

variable {jsonDepth : Nat} {s : Store} {name key k : Text} {value : Bytes}

theorem kvKey_ne_of_head (h : k.head? ≠ some 'k') : kvKey key ≠ k := by
  rintro rfl
  exact h rfl

-- A record of a client, or its index.
def IsClientKey (k : Text) : Prop :=
  ∃ name, k = clientSecretKey name ∨ k = clientAclKey name ∨ k = deviceToAppKey name

theorem has_set_client (h : IsClientKey k) :
    (s.set k value).has (kvKey key) = s.has (kvKey key) := by
  apply has_congr
  apply Store.peek_set_of_ne
  apply kvKey_ne_of_head
  obtain ⟨name, rfl | rfl | rfl⟩ := h
  · rw [clientSecretKey_eq]
    simp
  · rw [clientAclKey_eq]
    simp
  · rw [deviceToAppKey_eq]
    simp

theorem has_delete_of_has {keys : List Text} (h : (s.delete keys).has key = true) :
    s.has key = true := by
  unfold Store.has at h ⊢
  rw [Store.get_delete, Store.stream?_delete] at h
  split at h
  · cases h
  · exact h

theorem kvKey_ne_clientKey (h : IsClientKey k) : k ≠ kvKey key := by
  obtain ⟨name, rfl | rfl | rfl⟩ := h
  · rw [clientSecretKey_eq, kvKey_eq]
    simp
  · rw [clientAclKey_eq, kvKey_eq]
    simp
  · rw [deviceToAppKey_eq, kvKey_eq]
    simp

theorem sameClient_of_apart {s' : Store} (h : ∀ k, IsClientKey k → s'.get k = s.get k)
    (name : Text) : SameClient s s' name :=
  ⟨h _ ⟨name, .inl rfl⟩, h _ ⟨name, .inr (.inl rfl)⟩, h _ ⟨name, .inr (.inr rfl)⟩⟩

-- Deleting keys that are no client's leaves a lookup nothing that it did not have.
theorem sound_delete {keys : List Text} (h : Sound jsonDepth s)
    (hkeys : ∀ k ∈ keys, ∃ key, k = kvKey key) : Sound jsonDepth (s.delete keys) := by
  refine h.step_keys (sameClient_of_apart fun k hk => ?_) fun key hhas => .inl ?_
  · rw [Store.get_delete, if_neg]
    intro hmem
    obtain ⟨key, rfl⟩ := hkeys k hmem
    exact kvKey_ne_clientKey hk rfl
  · exact has_delete_of_has hhas

-- A handler that writes no record of a client, and no key but vouched ones.
theorem sound_of_uses {α : Type} {handler : Handler α} {writes : Text → Prop} {w : World}
    (huses : handler.Uses (fun _ => True) writes) (hclient : ∀ k, IsClientKey k → ¬ writes k)
    (hkeys : ∀ key, writes (kvKey key) → KeyVouched jsonDepth w.store key)
    (h : Sound jsonDepth w.store) : Sound jsonDepth (handler.runOn w).2.store := by
  have hframe := huses.frame w
  refine h.step_keys (sameClient_of_apart fun k hk => hframe.get k (hclient k hk)) fun key hhas => ?_
  by_cases hwrites : writes (kvKey key)
  · exact .inr (hkeys key hwrites)
  · refine .inl ?_
    unfold Store.has at hhas ⊢
    rw [← hframe.get _ hwrites, ← hframe.stream _ hwrites]
    exact hhas

end Frames

section Requests

variable {site : Site} {w : World} {clientId : Text}

-- The request leaves a lookup only what is vouched for. A key that it writes is vouched for; an
-- ACL that it writes is for the app that a lookup finds; and what it revokes no key is named
-- after.
def Call.KeepsSound (site : Site) (w : World) : Call → Prop
  | .writeKv context key request =>
      checkAcl context.acl ("kv/".toList ++ key) .write = .ok () →
        (∃ body, storedBody request = .ok body) → KeyVouched site.jsonDepth w.store key
  | .setKv username key payload =>
      (adminContextIn site.jsonDepth site.rescueUsers username w.store >>= fun acl =>
          checkAcl acl ("kv/".toList ++ key) .write) = .ok () →
        (∃ packed, (coerceJson site payload.value).bind packOrRaise = .ok packed) →
          KeyVouched site.jsonDepth w.store key
  | .submitForm username app device form =>
      (adminContextIn site.jsonDepth site.rescueUsers username w.store >>= fun acl =>
          checkAcl acl ("kv/".toList ++ app ++ '/' :: device) .write) = .ok () →
        ∀ field ∈ form, ¬ (field.1 = [] ∨ '/' ∈ field.1) →
          KeyVouched site.jsonDepth w.store (fieldKey app device field.1)
  | .createClient username clientId _ =>
      MayManage site username w → rejectIfReserved clientId = .ok () → LooksUp clientId →
        ∀ app, ¬ Finds w.store clientId app
  | .provisionDevice username clientId app _ =>
      MayManage site username w → checkProvision clientId app = .ok () → app ≠ "_catalog".toList
  | .updateAcl username clientId permissions =>
      MayManage site username w → truthy (w.store.get (clientSecretKey clientId)) →
        LooksUp clientId → ∀ raw,
          dumpRecord site (permissionsAcl (permissions.map aclPermission)) = .ok raw →
            ∀ app, Finds w.store clientId app →
              Carries site.jsonDepth raw (app ++ '/' :: clientId)
  | .revokeClient username clientId =>
      MayManage site username w → LooksUp clientId → ∀ app, ¬ Seen w.store clientId app
  | .restoreKeys username force clients =>
      MayManage site username w → ∀ client ∈ clients,
        ¬ (truthy (w.store.get (clientSecretKey client.clientId)) ∧ ¬ force) →
          LooksUp client.clientId → ∀ raw, dumpRecord site client.acl = .ok raw →
            ∀ app, Finds w.store client.clientId app →
              Carries site.jsonDepth raw (app ++ '/' :: client.clientId)
  | _ => True

theorem sound_map {α β : Type} {handler : Handler α} {f : α → β}
    (h : Sound site.jsonDepth (handler.runOn w).2.store) :
    Sound site.jsonDepth ((f <$> handler).runOn w).2.store := by
  rw [Handler.runOn_map]
  exact h

theorem keyVouched_flag {jsonDepth : Nat} {s : Store} {key : Text} (h : KeyVouched jsonDepth s key) :
    KeyVouched jsonDepth s (flagOf key) := by
  intro app name hparts
  rw [partsOf_flag] at hparts
  exact h app name hparts

-- The two records of a value.
theorem keyVouched_of_record {jsonDepth : Nat} {s : Store} {key other : Text}
    (h : KeyVouched jsonDepth s key) (hother : kvKey other = kvKey key ∨ kvKey other = encKey key) :
    KeyVouched jsonDepth s other := by
  rcases hother with heq | heq
  · rw [kvKey_inj.mp heq]
    exact h
  · rw [← kvKey_flagOf, kvKey_inj] at heq
    rw [heq]
    exact keyVouched_flag h

theorem encKey_is_kvKey (key : Text) : ∃ other, encKey key = kvKey other :=
  ⟨flagOf key, (kvKey_flagOf key).symm⟩

theorem record_not_client {key k : Text} (hk : IsClientKey k) : ¬ (k = kvKey key ∨ k = encKey key) := by
  rintro (rfl | rfl)
  · exact kvKey_ne_clientKey hk rfl
  · obtain ⟨other, hother⟩ := encKey_is_kvKey key
    exact kvKey_ne_clientKey hk hother

theorem writeKv_sound {context : Context} {key : Text} {request : Request}
    (hkeeps : Call.KeepsSound site w (.writeKv context key request))
    (h : Sound site.jsonDepth w.store) :
    Sound site.jsonDepth ((writeKv site.hmac site.gate context key request).runOn w).2.store := by
  cases hacl : checkAcl context.acl ("kv/".toList ++ key) .write with
  | error exn =>
      rw [writeKv, hacl]
      exact h
  | ok value =>
      cases hbody : storedBody request with
      | error exn =>
          rw [writeKv, hacl, hbody]
          exact h
      | ok body =>
          have hvouched := hkeeps hacl ⟨body, hbody⟩
          exact sound_of_uses (writeKv_uses site.hmac context request site.gate
            (.inl rfl : kvKey key = kvKey key ∨ kvKey key = encKey key) (.inr rfl))
            (fun k hk => record_not_client hk) (fun other => keyVouched_of_record hvouched) h

theorem setKv_sound {username key : Text} {payload : KvPayload}
    (hkeeps : Call.KeepsSound site w (.setKv username key payload))
    (h : Sound site.jsonDepth w.store) :
    Sound site.jsonDepth ((setKv site username key payload).runOn w).2.store := by
  by_cases hgoes : (adminContextIn site.jsonDepth site.rescueUsers username w.store >>= fun acl =>
      checkAcl acl ("kv/".toList ++ key) .write) = .ok () ∧
        ∃ packed, (coerceJson site payload.value).bind packOrRaise = .ok packed
  · exact sound_of_uses (setKv_uses site trivial payload
      (.inl rfl : kvKey key = kvKey key ∨ kvKey key = encKey key) (.inr rfl))
      (fun k hk => record_not_client hk)
      (fun other => keyVouched_of_record (hkeeps hgoes.1 hgoes.2)) h
  · rw [setKv, Handler.runOn_bind, requireAdminKv_runOn]
    cases hallowed : (adminContextIn site.jsonDepth site.rescueUsers username w.store >>= fun acl =>
        checkAcl acl ("kv/".toList ++ key) .write) with
    | error exn => exact h
    | ok value =>
        have hnot : ∀ packed, (coerceJson site payload.value).bind packOrRaise ≠ .ok packed :=
          fun packed hpacked => hgoes ⟨hallowed, packed, hpacked⟩
        cases hdata : coerceJson site payload.value with
        | error exn => exact h
        | ok data =>
            rw [hdata] at hnot
            change ∀ packed, packOrRaise data ≠ .ok packed at hnot
            dsimp only
            rw [Handler.runOn_ofExcept_ok_bind]
            cases hpacked : packOrRaise data with
            | error exn => exact h
            | ok packed => exact absurd hpacked (hnot packed)

theorem deleteKv_sound {context : Context} {key : Text} {request : Request}
    (h : Sound site.jsonDepth w.store) :
    Sound site.jsonDepth ((deleteKv site.hmac context key request).runOn w).2.store := by
  have hdeleted : Sound site.jsonDepth (w.store.delete [kvKey key, encKey key]) := by
    refine sound_delete h fun k hk => ?_
    rcases List.mem_pair.mp hk with rfl | rfl
    · exact ⟨key, rfl⟩
    · exact encKey_is_kvKey key
  cases hacl : checkAcl context.acl ("kv/".toList ++ key) .write with
  | error exn =>
      rw [deleteKv, hacl]
      exact h
  | ok value =>
      obtain ⟨response, hrun, -⟩ := signedMsgpack_runOn site.hmac context request
        (show (utf8 "ok".toList).length < 2 ^ 32 by decide)
        { w with store := w.store.delete [kvKey key, encKey key] }
      have hafter : ((deleteKv site.hmac context key request).runOn w).2 =
          { w with store := w.store.delete [kvKey key, encKey key] } := by
        rw [deleteKv, hacl]
        exact congrArg Prod.snd hrun
      rw [hafter]
      exact hdeleted

theorem adminDeleteKv_sound {username key : Text} (h : Sound site.jsonDepth w.store) :
    Sound site.jsonDepth ((adminDeleteKv site username key).runOn w).2.store := by
  rw [adminDeleteKv, Handler.runOn_bind, requireAdminKv_runOn]
  cases (adminContextIn site.jsonDepth site.rescueUsers username w.store >>= fun acl =>
      checkAcl acl ("kv/".toList ++ key) .write) with
  | error exn => exact h
  | ok value =>
      refine sound_delete h fun k hk => ?_
      rcases List.mem_pair.mp hk with rfl | rfl
      · exact ⟨key, rfl⟩
      · exact encKey_is_kvKey key

theorem submitForm_sound {username app device : Text} {form : List (Text × Text)}
    (hkeeps : Call.KeepsSound site w (.submitForm username app device form))
    (h : Sound site.jsonDepth w.store) :
    Sound site.jsonDepth ((submitDeviceForm site username app device form).runOn w).2.store := by
  by_cases hallowed : (adminContextIn site.jsonDepth site.rescueUsers username w.store >>= fun acl =>
      checkAcl acl ("kv/".toList ++ app ++ '/' :: device) .write) = .ok ()
  · let writes (k : Text) : Prop := ∃ field ∈ form, ¬ (field.1 = [] ∨ '/' ∈ field.1) ∧
      (k = kvKey (fieldKey app device field.1) ∨ k = encKey (fieldKey app device field.1))
    refine @sound_of_uses _ _ _ writes _ (submitDeviceForm_uses site form trivial trivial
      fun field hfield hname => ⟨trivial, ⟨field, hfield, hname, .inl rfl⟩,
        ⟨field, hfield, hname, .inr rfl⟩⟩) ?_ ?_ h
    · rintro k hk ⟨field, -, -, hrecord⟩
      exact record_not_client hk hrecord
    · rintro key ⟨field, hfield, hname, hrecord⟩
      exact keyVouched_of_record (hkeeps hallowed field hfield hname) hrecord
  · rw [submitDeviceForm, Handler.runOn_bind, getAdminContext_runOn]
    cases hcontext : adminContextIn site.jsonDepth site.rescueUsers username w.store with
    | error exn => exact h
    | ok acl =>
        rw [hcontext] at hallowed
        change ¬ checkAcl acl ("kv/".toList ++ app ++ '/' :: device) .write = .ok () at hallowed
        cases hcheck : checkAcl acl ("kv/".toList ++ app ++ '/' :: device) .write with
        | ok value => exact absurd hcheck hallowed
        | error exn =>
            simp only [hcheck]
            cases exn with
            | http status detail => exact h
            | python name => exact h
            | outOfFuel => exact h

-- A client's secret and ACL are written; what a lookup finds stays as it was.
theorem sound_of_record {jsonDepth : Nat} {s s' : Store} (h : Sound jsonDepth s) (id : Text)
    (hother : ∀ k, IsClientKey k → k ≠ clientSecretKey id → k ≠ clientAclKey id →
      s'.get k = s.get k)
    (hhas : ∀ key, s'.has (kvKey key) = s.has (kvKey key))
    (hnew : ∀ app, LooksUp id → Finds s id app → Vouched jsonDepth s id app →
      (∃ secret, s'.get (clientSecretKey id) = some secret) ∧
        ∃ raw, s'.get (clientAclKey id) = some raw ∧ Carries jsonDepth raw (app ++ '/' :: id)) :
    Sound jsonDepth s' := by
  refine h.step (fun name => name = id) (fun name hname => ?_) (fun key hkey => .inl ?_) ?_
  · exact ⟨hother _ ⟨name, .inl rfl⟩ (by simpa using hname) (by simp),
      hother _ ⟨name, .inr (.inl rfl)⟩ (by simp) (by simpa using hname),
      hother _ ⟨name, .inr (.inr rfl)⟩ (by simp) (by simp)⟩
  · rw [← hhas]
    exact hkey
  · rintro name app rfl hname hfinds
    have hindex := hother (deviceToAppKey name) ⟨name, .inr (.inr rfl)⟩ (by simp) (by simp)
    have hbefore : Finds s name app := by
      rcases hfinds with hfound | ⟨hnone, key, hkey, hparts⟩
      · exact .inl (hindex.symm.trans hfound)
      · exact .inr ⟨hindex.symm.trans hnone, key, (hhas key).symm.trans hkey, hparts⟩
    have hvouched := h name app hname hbefore
    obtain ⟨hsecret, hshaped⟩ := hnew app hname hbefore hvouched
    exact ⟨hsecret, hshaped, hvouched.app_free, hvouched.name_free⟩

theorem has_put_client {k key : Text} {value : Bytes} (h : IsClientKey k) :
    (World.put w k value).store.has (kvKey key) = w.store.has (kvKey key) :=
  has_set_client h

theorem putAcl_sound {acl : Value} (h : Sound site.jsonDepth w.store)
    (hnew : ∀ raw, dumpRecord site acl = .ok raw → ∀ app, LooksUp clientId →
      Finds w.store clientId app → Carries site.jsonDepth raw (app ++ '/' :: clientId)) :
    Sound site.jsonDepth (putAcl site clientId acl w).2.store := by
  unfold putAcl
  cases hdump : dumpRecord site acl with
  | error exn => exact h
  | ok raw =>
      refine sound_of_record h clientId (fun k _ _ hacl => ?_)
        (fun key => has_put_client ⟨clientId, .inr (.inl rfl)⟩) fun app hname hfinds hvouched => ?_
      · rw [get_put, if_neg hacl]
      · refine ⟨?_, raw, by simp, hnew raw hdump app hname hfinds⟩
        obtain ⟨secret, hsecret⟩ := hvouched.client
        exact ⟨secret, by simpa using hsecret⟩

theorem putSecret_sound {secret : Text} (h : Sound site.jsonDepth w.store) :
    Sound site.jsonDepth (World.put w (clientSecretKey clientId) (utf8 secret)).store := by
  refine sound_of_record h clientId (fun k _ hsecret _ => ?_)
    (fun key => has_put_client ⟨clientId, .inl rfl⟩) fun app hname hfinds hvouched => ?_
  · rw [get_put, if_neg hsecret]
  · refine ⟨⟨utf8 secret, by simp⟩, ?_⟩
    obtain ⟨raw, hraw, hcarries⟩ := hvouched.shaped
    exact ⟨raw, by simpa using hraw, hcarries⟩

-- What a lookup finds does not hang on the secret.
theorem finds_put_secret {secret id app : Text} :
    Finds (World.put w (clientSecretKey clientId) (utf8 secret)).store id app ↔
      Finds w.store id app := by
  have hindex : (World.put w (clientSecretKey clientId) (utf8 secret)).store.get
      (deviceToAppKey id) = w.store.get (deviceToAppKey id) := by simp
  have hhas : ∀ key, (World.put w (clientSecretKey clientId) (utf8 secret)).store.has (kvKey key) =
      w.store.has (kvKey key) := fun key => has_put_client ⟨clientId, .inl rfl⟩
  simp only [Finds, Seen, hindex, hhas]

theorem createClient_sound {username secret : Text}
    (hkeeps : Call.KeepsSound site w (.createClient username clientId secret))
    (h : Sound site.jsonDepth w.store) :
    Sound site.jsonDepth ((createClient site username clientId secret).runOn w).2.store := by
  by_cases hmay : MayManage site username w
  · rw [createClient_runOn hmay]
    cases hreserved : rejectIfReserved clientId with
    | error exn => exact h
    | ok value =>
        refine putAcl_sound (putSecret_sound h) fun raw _ app hname hfinds => ?_
        exact absurd (finds_put_secret.mp hfinds) (hkeeps hmay hreserved hname app)
  · rw [createClient, manage_of_not hmay]
    exact h

theorem updateAcl_sound {username : Text} {permissions : List (Text × Text)}
    (hkeeps : Call.KeepsSound site w (.updateAcl username clientId permissions))
    (h : Sound site.jsonDepth w.store) :
    Sound site.jsonDepth ((updateAcl site username clientId permissions).runOn w).2.store := by
  by_cases hmay : MayManage site username w
  · rw [updateAcl_runOn hmay]
    by_cases hthere : truthy (w.store.get (clientSecretKey clientId))
    · rw [if_pos hthere]
      exact putAcl_sound h fun raw hdump app hname hfinds =>
        hkeeps hmay hthere hname raw hdump app hfinds
    · rw [if_neg hthere]
      exact h
  · rw [updateAcl, manage_of_not hmay]
    exact h

theorem withSecret_sound {secret : Text} (h : Sound site.jsonDepth w.store) :
    Sound site.jsonDepth (withSecret clientId secret w).store := by
  unfold withSecret
  split
  · exact putSecret_sound h
  · exact h

theorem withSecret_has (clientId secret key : Text) :
    (withSecret clientId secret w).store.has (kvKey key) = w.store.has (kvKey key) := by
  unfold withSecret
  split
  · exact has_put_client ⟨clientId, .inl rfl⟩
  · rfl

theorem withSecret_client (clientId secret : Text) :
    ∃ value, (withSecret clientId secret w).store.get (clientSecretKey clientId) = some value := by
  unfold withSecret
  split
  · exact ⟨utf8 secret, by simp⟩
  · next hthere => exact Option.ne_none_iff_exists'.mp hthere

theorem withSecret_other {k secret : Text} (h : k ≠ clientSecretKey clientId) :
    (withSecret clientId secret w).store.get k = w.store.get k := by
  unfold withSecret
  split
  · rw [get_put, if_neg h]
  · rfl

theorem carries_deviceAcl {app : Text} {raw : Bytes}
    (h : dumpRecord site (deviceAcl clientId app) = .ok raw) :
    Carries site.jsonDepth raw (app ++ '/' :: clientId) := by
  obtain ⟨raw', hdump, hread⟩ :=
    Acl.dumpRecord_provisionedAcl (Acl.depth_of_dumpRecord h) clientId app
  obtain rfl := Except.ok.inj (h.symm.trans hdump)
  refine ⟨_, hread, ?_⟩
  exact ⟨_, _, _, rfl, rfl, List.mem_cons_self, rfl⟩

theorem provisionDevice_sound {username app secret : Text}
    (hkeeps : Call.KeepsSound site w (.provisionDevice username clientId app secret))
    (h : Sound site.jsonDepth w.store) :
    Sound site.jsonDepth ((provisionDevice site username clientId app secret).runOn w).2.store := by
  by_cases hmay : MayManage site username w
  · rw [provisionDevice_runOn hmay]
    cases hcheck : checkProvision clientId app with
    | error exn => exact h
    | ok value =>
        cases hdump : dumpRecord site (deviceAcl clientId app) with
        | error exn => exact withSecret_sound h
        | ok raw =>
            have hfree : clientId ∉ reservedClientIds := by
              intro hmem
              rw [checkProvision, rejectIfReserved, if_pos hmem] at hcheck
              cases hcheck
            refine h.step (fun name => name = clientId) (fun name hname => ?_)
              (fun key hkey => .inl ?_) ?_
            · refine ⟨?_, ?_, ?_⟩
              · simp [withSecret_other, hname]
              · simp [withSecret_other, hname]
              · simp [withSecret_other, hname]
            · rw [has_put_client ⟨clientId, .inr (.inr rfl)⟩,
                has_put_client ⟨clientId, .inr (.inl rfl)⟩, withSecret_has] at hkey
              exact hkey
            · rintro name found rfl hname hfinds
              have hfound : found = app := by
                rcases hfinds with hindex | ⟨hnone, -⟩
                · rw [get_put, if_pos rfl] at hindex
                  exact (utf8_injective (Option.some.inj hindex)).symm
                · rw [get_put, if_pos rfl] at hnone
                  cases hnone
              rw [hfound]
              refine ⟨?_, ⟨raw, by simp, carries_deviceAcl hdump⟩, hkeeps hmay hcheck, hfree⟩
              obtain ⟨value, hvalue⟩ := @withSecret_client w name secret
              exact ⟨value, by simpa using hvalue⟩
  · rw [provisionDevice, manage_of_not hmay]
    exact h

theorem revokeClient_sound {username : Text}
    (hkeeps : Call.KeepsSound site w (.revokeClient username clientId))
    (h : Sound site.jsonDepth w.store) :
    Sound site.jsonDepth ((revokeClient site username clientId).runOn w).2.store := by
  by_cases hmay : MayManage site username w
  · rw [revokeClient_runOn hmay]
    refine h.step (fun name => name = clientId) (fun name hname => ?_) (fun key hkey => .inl ?_) ?_
    · exact ⟨by simp [hname], by simp [hname], by simp [hname]⟩
    · exact has_delete_of_has (has_delete_of_has (has_delete_of_has hkey))
    · rintro name app rfl hname hfinds
      rcases hfinds with hindex | ⟨-, key, hkey, hparts⟩
      · rw [get_remove, if_pos rfl] at hindex
        cases hindex
      · exact absurd ⟨key, has_delete_of_has (has_delete_of_has (has_delete_of_has hkey)), hparts⟩
          (hkeeps hmay hname app)
  · rw [revokeClient, manage_of_not hmay]
    exact h

theorem finds_put_acl {raw : Bytes} {id app : Text} :
    Finds (World.put w (clientAclKey clientId) raw).store id app ↔ Finds w.store id app := by
  have hindex : (World.put w (clientAclKey clientId) raw).store.get (deviceToAppKey id) =
      w.store.get (deviceToAppKey id) := by simp
  have hhas : ∀ key, (World.put w (clientAclKey clientId) raw).store.has (kvKey key) =
      w.store.has (kvKey key) := fun key => has_put_client ⟨clientId, .inr (.inl rfl)⟩
  simp only [Finds, Seen, hindex, hhas]

-- An entry is left out where its client is there, also when an earlier entry made it.
theorem restoreEach_sound {force : Bool} {clients : List ClientBackupEntry}
    (hkeeps : ∀ client ∈ clients,
      ¬ (truthy (w.store.get (clientSecretKey client.clientId)) ∧ ¬ force) →
        LooksUp client.clientId → ∀ raw, dumpRecord site client.acl = .ok raw →
          ∀ app, Finds w.store client.clientId app →
            Carries site.jsonDepth raw (app ++ '/' :: client.clientId))
    (h : Sound site.jsonDepth w.store) :
    Sound site.jsonDepth ((restoreEach site force clients).runOn w).2.store := by
  induction clients generalizing w with
  | nil => exact h
  | cons client rest ih =>
      have hrest := fun other hother => hkeeps other (List.mem_cons_of_mem client hother)
      rw [restoreEach]
      cases hreserved : rejectIfReserved client.clientId with
      | error exn => exact h
      | ok value =>
          rw [Handler.runOn_ofExcept_ok_bind]
          change Sound _ ((if truthy (w.store.get (clientSecretKey client.clientId)) ∧ ¬ force then
            _ else _ : Handler Unit).runOn w).2.store
          by_cases hskip : truthy (w.store.get (clientSecretKey client.clientId)) ∧ ¬ force
          · rw [if_pos hskip]
            exact ih hrest h
          · rw [if_neg hskip]
            let w₁ := World.put w (clientSecretKey client.clientId) (utf8 client.secret)
            have hsecret : Sound site.jsonDepth w₁.store := putSecret_sound h
            cases hdump : dumpRecord site client.acl with
            | error exn => exact hsecret
            | ok raw =>
                let w₂ := World.put w₁ (clientAclKey client.clientId) raw
                change Sound _ ((restoreEach site force rest).runOn w₂).2.store
                have hboth : Sound site.jsonDepth w₂.store := by
                  have hput := @putAcl_sound site w₁ client.clientId client.acl hsecret
                    fun raw hdump app hname hfinds => hkeeps client List.mem_cons_self hskip hname
                      raw hdump app (finds_put_secret.mp hfinds)
                  rw [putAcl, hdump] at hput
                  exact hput
                refine ih (fun other hother hnot hname raw hdump app hfinds => ?_) hboth
                refine hrest other hother ?_ hname raw hdump app
                  (finds_put_secret.mp (finds_put_acl.mp hfinds))
                rintro ⟨hthere, hforce⟩
                by_cases hsame : other.clientId = client.clientId
                · rw [hsame] at hthere
                  exact hskip ⟨hthere, hforce⟩
                · exact hnot ⟨by simpa [w₂, w₁, hsame] using hthere, hforce⟩

theorem restoreKeys_sound {username : Text} {force : Bool} {clients : List ClientBackupEntry}
    (hkeeps : Call.KeepsSound site w (.restoreKeys username force clients))
    (h : Sound site.jsonDepth w.store) :
    Sound site.jsonDepth ((restoreKeys site username force clients).runOn w).2.store := by
  by_cases hmay : MayManage site username w
  · rw [restoreKeys, manage_of_ok hmay]
    exact restoreEach_sound (hkeeps hmay) h
  · rw [restoreKeys, manage_of_not hmay]
    exact h

-- A request that keeps to what is vouched for leaves a lookup nothing else.
theorem request_sound (request : Call) (hkeeps : Call.KeepsSound site w request)
    (h : Sound site.jsonDepth w.store) :
    Sound site.jsonDepth ((request.handler site).runOn w).2.store := by
  have hqueue {topic k : Text} (hk : IsClientKey k) : k ≠ queueKey topic := by
    obtain ⟨name, rfl | rfl | rfl⟩ := hk
    · rw [clientSecretKey_eq, queueKey_eq]
      simp
    · rw [clientAclKey_eq, queueKey_eq]
      simp
    · rw [deviceToAppKey_eq, queueKey_eq]
      simp
  have hadmin {username k : Text} (hk : IsClientKey k) : k ≠ adminAclKey username := by
    obtain ⟨name, rfl | rfl | rfl⟩ := hk
    · rw [clientSecretKey_eq, adminAclKey_eq]
      simp
    · rw [clientAclKey_eq, adminAclKey_eq]
      simp
    · rw [deviceToAppKey_eq, adminAclKey_eq]
      simp
  cases request with
  | writeKv context key request => exact sound_map (writeKv_sound hkeeps h)
  | setKv username key payload => exact sound_map (setKv_sound hkeeps h)
  | deleteKv context key request => exact sound_map (deleteKv_sound h)
  | adminDeleteKv username key => exact sound_map (adminDeleteKv_sound h)
  | submitForm username app device form => exact sound_map (submitForm_sound hkeeps h)
  | createClient username clientId secret => exact sound_map (createClient_sound hkeeps h)
  | provisionDevice username clientId app secret => exact sound_map (provisionDevice_sound hkeeps h)
  | updateAcl username clientId permissions => exact sound_map (updateAcl_sound hkeeps h)
  | revokeClient username clientId => exact sound_map (revokeClient_sound hkeeps h)
  | restoreKeys username force clients => exact sound_map (restoreKeys_sound hkeeps h)
  | publish context topic request ttl =>
      refine sound_map (@sound_of_uses _ _ _ (fun k => k = queueKey topic) _
        (publishMessage_uses site.hmac context request ttl trivial rfl) (fun k => hqueue) ?_ h)
      intro key hkey
      rw [kvKey_eq, queueKey_eq] at hkey
      exact absurd hkey (by simp)
  | deleteQueue username topic =>
      refine sound_map (@sound_of_uses _ _ _ (fun k => k = queueKey topic) _
        (deleteQueue_uses site trivial rfl) (fun k => hqueue) ?_ h)
      intro key hkey
      rw [kvKey_eq, queueKey_eq] at hkey
      exact absurd hkey (by simp)
  | updateAdminUserAcl username target permissions =>
      refine sound_map (@sound_of_uses _ _ _ (fun k => k = adminAclKey target) _
        (updateAdminUserAcl_uses site trivial permissions rfl) (fun k => hadmin) ?_ h)
      intro key hkey
      rw [kvKey_eq, adminAclKey_eq] at hkey
      exact absurd hkey (by simp)
  | deleteAdminUserAcl username target =>
      refine sound_map (@sound_of_uses _ _ _ (fun k => k = adminAclKey target) _
        (deleteAdminUserAcl_uses site trivial rfl) (fun k => hadmin) ?_ h)
      intro key hkey
      rw [kvKey_eq, adminAclKey_eq] at hkey
      exact absurd hkey (by simp)
  | consume context topic request envelope fuel =>
      refine sound_map (@sound_of_uses _ _ _ (fun k => k = cursorKey context.clientId topic) _
        (consumeMessage_uses site.hmac context request envelope fuel trivial rfl trivial) ?_ ?_ h)
      · rintro k ⟨name, rfl | rfl | rfl⟩ hkey
        · rw [clientSecretKey_eq, cursorKey_eq] at hkey
          exact absurd hkey (by simp)
        · rw [clientAclKey_eq, cursorKey_eq] at hkey
          exact absurd hkey (by simp)
        · rw [deviceToAppKey_eq, cursorKey_eq] at hkey
          exact absurd hkey (by simp)
      · intro key hkey
        rw [kvKey_eq, cursorKey_eq] at hkey
        exact absurd hkey (by simp)
  | readKv context key request =>
      refine sound_map (@sound_of_uses _ _ _ (fun k => k = nonceKey context.clientId) _
        (readKv_uses site.hmac context request trivial trivial trivial rfl) ?_ ?_ h)
      · rintro k ⟨name, rfl | rfl | rfl⟩ hkey
        · rw [clientSecretKey_eq, nonceKey_eq] at hkey
          exact absurd hkey (by simp)
        · rw [clientAclKey_eq, nonceKey_eq] at hkey
          exact absurd hkey (by simp)
        · rw [deviceToAppKey_eq, nonceKey_eq] at hkey
          exact absurd hkey (by simp)
      · intro key hkey
        rw [kvKey_eq, nonceKey_eq] at hkey
        exact absurd hkey (by simp)

end Requests

end Stra2us.Admin
