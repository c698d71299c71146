import Stra2us.Admin.Finding
import Stra2us.Admin.Operation

namespace Stra2us.Admin

open Foundation Server Backup

section Restores

variable {cfg : Restoring} {env : BackupEnvelope} {store : Store} {item : Item} {s : State}

-- The entry, where it is written, leaves a lookup only what is vouched for.
def Item.KeepsSound (cfg : Restoring) (s : Store) : Item → Prop
  | .client (.text id) record =>
      (∃ secret, record.secret = .text secret) → LooksUp id →
        ∀ raw, cfg.dumps record.acl = .ok raw →
          ∀ app, Finds s id app → Carries cfg.jsonDepth raw (app ++ '/' :: id)
  | .kv (.text name) _ => KeyVouched cfg.jsonDepth s name
  | .deviceToApp (.text id) (.text app) => LooksUp id → Vouched cfg.jsonDepth s id app
  | _ => True

-- So does every entry that the restore gets to and does not leave out.
def RestoreKeepsSound (cfg : Restoring) (env : BackupEnvelope) (store : Store) : Prop :=
  ∀ before item name, Reaches (restoreItem cfg) env.items before item (.start store) →
    (item.task cfg).Accepts name →
      ¬ (item.task cfg).Skips cfg.forceOverwrite name
        (batch (restoreItem cfg) before (.start store)).2.store →
        Item.KeepsSound cfg (batch (restoreItem cfg) before (.start store)).2.store item

theorem isClientKey_iff {k : Text} : IsClientKey k ↔ ∃ name, k = (Slot.secret name).key ∨
    k = (Slot.acl name).key ∨ k = (Slot.deviceToApp name).key :=
  Iff.rfl

-- Other records do not matter to a lookup.
theorem sound_of_peek {jsonDepth : Nat} {s s' : Store} (h : Sound jsonDepth s)
    (hclient : ∀ k, IsClientKey k → s'.peek k = s.peek k)
    (hkeys : ∀ key, s'.peek (kvKey key) = s.peek (kvKey key)) : Sound jsonDepth s' := by
  refine h.step_keys (sameClient_of_apart fun k hk => congrArg Prod.fst (hclient k hk)) ?_
  intro key hhas
  rw [has_congr (hkeys key)] at hhas
  exact .inl hhas

theorem not_isClientKey {slot : Slot} (h : slot.letter ≠ 'c' ∧ slot.letter ≠ 'd') :
    ¬ IsClientKey slot.key := by
  rw [isClientKey_iff]
  rintro ⟨name, hkey | hkey | hkey⟩
  · rw [Slot.key_injective hkey] at h
    exact h.1 rfl
  · rw [Slot.key_injective hkey] at h
    exact h.1 rfl
  · rw [Slot.key_injective hkey] at h
    exact h.2 rfl

theorem setRecord_sound {jsonDepth : Nat} {store : Store} {name : Text} (record : KvRecord)
    (hkeeps : KeyVouched jsonDepth store name) (h : Sound jsonDepth store) :
    Sound jsonDepth (setRecord name record store) := by
  refine h.step_keys (sameClient_of_apart fun k hk => ?_) fun key hhas => ?_
  · have hnot := @record_not_client name k hk
    rw [not_or] at hnot
    exact congrArg Prod.fst (peek_setRecord hnot.1 hnot.2 record store)
  · by_cases hrecord : kvKey key = kvKey name ∨ kvKey key = encKey name
    · exact .inr (keyVouched_of_record hkeeps hrecord)
    · rw [not_or] at hrecord
      rw [has_congr (peek_setRecord hrecord.1 hrecord.2 record store)] at hhas
      exact .inl hhas

theorem client_sound {jsonDepth : Nat} {store : Store} {id secret : Text} {acl : Except Exn Bytes}
    (hkeeps : LooksUp id → ∀ raw, acl = .ok raw → ∀ app, Finds store id app →
      Carries jsonDepth raw (app ++ '/' :: id)) (h : Sound jsonDepth store) :
    Sound jsonDepth (setStr (clientAclKey id) acl
      (store.set (clientSecretKey id) (utf8 secret))).2 := by
  refine sound_of_record h id (fun k _ hsecret hacl => ?_) (fun key => ?_)
    fun app hname hfinds hvouched => ?_
  · have hpeek := peek_setStr hacl acl (store.set (clientSecretKey id) (utf8 secret))
    exact (congrArg Prod.fst hpeek).trans (Store.get_set_of_ne _ hsecret _)
  · have hne : kvKey key ≠ clientAclKey id := (kvKey_ne_clientKey ⟨id, .inr (.inl rfl)⟩).symm
    rw [has_congr (peek_setStr hne acl _), has_set_client ⟨id, .inl rfl⟩]
  · have hne := Slot.clientSecretKey_ne_clientAclKey id id
    constructor
    · refine ⟨utf8 secret, ?_⟩
      have hpeek := peek_setStr hne acl (store.set (clientSecretKey id) (utf8 secret))
      exact (congrArg Prod.fst hpeek).trans (Store.get_set_self _ _ _)
    · cases acl with
      | error exn =>
          obtain ⟨raw, hraw, hcarries⟩ := hvouched.shaped
          exact ⟨raw, (Store.get_set_of_ne _ hne.symm _).trans hraw, hcarries⟩
      | ok raw => exact ⟨raw, Store.get_set_self _ _ _, hkeeps hname raw rfl app hfinds⟩

-- An index that points to the app of a client that is there.
theorem index_sound {jsonDepth : Nat} {store : Store} {id app : Text}
    (hkeeps : LooksUp id → Vouched jsonDepth store id app) (h : Sound jsonDepth store) :
    Sound jsonDepth (store.set (deviceToAppKey id) (utf8 app)) := by
  have hclient {k : Text} (hk : k ≠ deviceToAppKey id) :
      (store.set (deviceToAppKey id) (utf8 app)).get k = store.get k :=
    Store.get_set_of_ne _ hk _
  refine h.step (fun name => name = id) (fun name hname => ?_) (fun key hkey => .inl ?_) ?_
  · exact ⟨hclient (by simp), hclient (by simp), hclient (by simpa using hname)⟩
  · rw [has_set_client ⟨id, .inr (.inr rfl)⟩] at hkey
    exact hkey
  · rintro name found rfl hname hfinds
    have hfound : found = app := by
      rw [Finds, Store.get_set_self] at hfinds
      rcases hfinds with hindex | ⟨hnone, -⟩
      · exact (utf8_injective (Option.some.inj hindex)).symm
      · cases hnone
    have hvouched := hkeeps hname
    rw [hfound]
    refine ⟨?_, ?_, hvouched.app_free, hvouched.name_free⟩
    · rw [hclient (by simp)]
      exact hvouched.client
    · rw [hclient (by simp)]
      exact hvouched.shaped

-- The other entries keep away from what a lookup goes by.
theorem write_apart {name : Text} (haccepts : (item.task cfg).Accepts name) (existed : Bool)
    (hslots : ∀ slot ∈ item.slots, slot.letter ∉ ['c', 'd', 'k']) (h : Sound cfg.jsonDepth store) :
    Sound cfg.jsonDepth ((item.task cfg).write name existed store).2 := by
  have hpeek {k : Text} (hk : ∀ slot ∈ item.slots, slot.key ≠ k) :
      ((item.task cfg).write name existed store).2.peek k = store.peek k :=
    item.peek_write cfg hk name haccepts existed store
  refine sound_of_peek h (fun k hk => hpeek ?_) fun key => hpeek ?_
  · rintro slot hslot rfl
    exact not_isClientKey (by have := hslots slot hslot; simp_all) hk
  · intro slot hslot hkey
    have hkv : slot = .kv key := Slot.key_injective hkey
    have hletter := hslots slot hslot
    rw [hkv] at hletter
    exact hletter (by simp [Slot.letter])

theorem write_sound {name : Text} (haccepts : (item.task cfg).Accepts name)
    (hkeeps : Item.KeepsSound cfg s.store item) (h : Sound cfg.jsonDepth s.store) :
    Sound cfg.jsonDepth
      ((item.task cfg).write name ((item.task cfg).present name s.store) s.store).2 := by
  have hname := haccepts.2
  cases item with
  | client cid record =>
      obtain rfl := Str.encode_ok.mp hname
      change Sound _ (andThen (setStr (clientSecretKey name) (record.secret.encode.map utf8) s.store)
        (setStr (clientAclKey name) (cfg.dumps record.acl))).2
      cases hsecret : record.secret with
      | surrogates units => exact h
      | text secret => exact client_sound (hkeeps ⟨secret, hsecret⟩) h
  | kv key record =>
      obtain rfl := Str.encode_ok.mp hname
      exact setRecord_sound record hkeeps h
  | deviceToApp cid app =>
      obtain rfl := Str.encode_ok.mp hname
      cases app with
      | surrogates units => exact h
      | text app => exact index_sound hkeeps h
  | adminAcl user acl =>
      obtain rfl := Str.encode_ok.mp hname
      refine write_apart haccepts _ (fun slot hslot => ?_) h
      rw [List.mem_singleton.mp hslot]
      simp [Slot.letter]
  | queue topic entries =>
      obtain rfl := Str.encode_ok.mp hname
      refine write_apart haccepts _ (fun slot hslot => ?_) h
      rw [List.mem_singleton.mp hslot]
      simp [Slot.letter]
  | activityLog entries =>
      refine write_apart haccepts _ (fun slot hslot => ?_) h
      rw [List.mem_singleton.mp hslot]
      simp [Slot.letter]

theorem restore_sound (hkeeps : RestoreKeepsSound cfg env store) (h : Sound cfg.jsonDepth store) :
    Sound cfg.jsonDepth (applyEnvelope cfg env store).2 := by
  let inv (s : State) : Prop := Sound cfg.jsonDepth s.store
  have hstep : ∀ before item, Reaches (restoreItem cfg) env.items before item (.start store) →
      inv (batch (restoreItem cfg) before (.start store)).2 →
        inv (restoreItem cfg item (batch (restoreItem cfg) before (.start store)).2).2 := by
    intro before item hreaches hbefore
    let s := (batch (restoreItem cfg) before (.start store)).2
    by_cases hwritten : ∃ name, (item.task cfg).Accepts name ∧
        ¬ (item.task cfg).Skips cfg.forceOverwrite name s.store
    · obtain ⟨name, haccepts, hskips⟩ := hwritten
      have hstore := (Task.run_written haccepts hskips).2.1
      change Sound _ ((item.task cfg).run cfg.forceOverwrite s).2.store
      rw [hstore]
      exact write_sound haccepts (hkeeps before item name hreaches haccepts hskips) hbefore
    · have hidle : (restoreItem cfg item s).2.store = s.store := by
        refine restoreItem_idle fun name haccepts => ?_
        by_contra hskips
        exact hwritten ⟨name, haccepts, hskips⟩
      change Sound _ (restoreItem cfg item s).2.store
      rw [hidle]
      exact hbefore
  exact @batch_invariant_of_reaches _ _ _ _ inv _ _ hstep h

end Restores

section Runs

variable {d : Deployment} {op : Operation} {w : World}

-- A step that brings nothing for a lookup to find that is not vouched for, and takes nothing away
-- that vouches for what a lookup finds.
def Operation.KeepsSound (d : Deployment) (op : Operation) (w : World) : Prop :=
  (∀ request, op = .call request → Call.KeepsSound d.site w request) ∧
    ∀ r cfg env, op.restore? d = some r → r.Applies d w cfg env → RestoreKeepsSound cfg env w.store

-- What a lookup fills in it has found there.
theorem lookupDevice_sound (hglob : GlobLiteral d.glob) (order : List Text) (name : Text)
    (h : Sound d.site.jsonDepth w.store) :
    Sound d.site.jsonDepth (lookupDevice d.glob order name w).2.store := by
  have hfound (app : Text) (hanswer : (lookupDevice d.glob order name w).1 = .ok app) :
      Vouched d.site.jsonDepth w.store name app :=
    consistent_of_sound hglob h order name app hanswer
  unfold lookupDevice at hfound ⊢
  by_cases hname : name = [] ∨ '/' ∈ name
  · rw [if_pos hname]
    exact h
  · rw [if_neg hname] at hfound ⊢
    cases hindex : w.store.get (deviceToAppKey name) with
    | some raw =>
        dsimp only
        cases utf8Decode raw with
        | some app => exact h
        | none => exact h
    | none =>
        rw [hindex] at hfound
        dsimp only at hfound ⊢
        cases hscan : (scan d.glob order (lookupPattern name) w.store).findSome?
            (appOfKey name) with
        | none => exact h
        | some app =>
            rw [hscan] at hfound
            exact index_sound (fun _ => hfound app rfl) h

theorem apply_sound (hglob : GlobLiteral d.glob) (h : Sound d.site.jsonDepth w.store)
    (hkeeps : op.KeepsSound d w) : Sound d.site.jsonDepth (op.apply d w).store := by
  cases hrestore : op.restore? d with
  | some r =>
      rcases @restore_cases d op r w hrestore with ⟨cfg, env, happlies, heq⟩ | ⟨-, heq⟩
      · have hdepth : cfg.jsonDepth = d.site.jsonDepth := by
          rw [happlies.2.2]
          rfl
        rw [heq]
        change Sound _ (applyEnvelope cfg env w.store).2
        rw [← hdepth] at h ⊢
        exact restore_sound (hkeeps.2 r cfg env hrestore happlies) h
      · rw [heq]
        exact h
  | none =>
      cases op with
      | call request => exact request_sound request (hkeeps.1 request rfl) h
      | restoreWhole username force body => cases hrestore
      | restorePerApp username app force body => cases hrestore
      | lookup order name => exact lookupDevice_sound hglob order name h
      | clock seconds redisMs => exact h

-- Where no step does otherwise, a lookup answers with the app of a client that is there, shaped
-- as a device of the app, in every state.
theorem lookup_consistent (d : Deployment) (hglob : GlobLiteral d.glob) (ops : List Operation)
    (h : Throughout (Operation.apply d) (fun op w => op.KeepsSound d w) ops World.empty) :
    Always (Operation.apply d) (LookupConsistent d) ops World.empty := by
  let good (w : World) : Prop := Sound d.site.jsonDepth w.store
  have hstep : ∀ op w, good w → op.KeepsSound d w → good (Operation.apply d op w) :=
    fun _ _ => apply_sound hglob
  have hstart : good World.empty := sound_empty
  exact (always_of_throughout hstep hstart h).mono fun _ => consistent_of_sound hglob

-- A pattern of stars and letters.
def starMatch : Text → Text → Bool
  | [], key => key.isEmpty
  | '*' :: pattern, key => key.tails.any fun rest => starMatch pattern rest
  | c :: pattern, key =>
      match key with
      | [] => false
      | first :: rest => c == first && starMatch pattern rest

def Deployment.starred : Deployment where
  toRestoreSite := Deployment.small.toRestoreSite
  glob := starMatch

theorem starMatch_cons {c : Char} {pattern key : Text} (hc : c ≠ '*')
    (h : starMatch (c :: pattern) key = true) :
    ∃ rest, key = c :: rest ∧ starMatch pattern rest = true := by
  cases key with
  | nil => simp [starMatch] at h
  | cons first rest =>
      have hboth : c = first ∧ starMatch pattern rest = true := by simpa [starMatch, hc] using h
      exact ⟨rest, by rw [hboth.1], hboth.2⟩

theorem globLiteral_starMatch : GlobLiteral starMatch := by
  intro name key hmatch
  change starMatch ('k' :: 'v' :: ':' :: ('*' :: '/' :: (name ++ "/*".toList))) key = true at hmatch
  obtain ⟨_, hk, hmatch⟩ := starMatch_cons (by decide) hmatch
  obtain ⟨_, hv, hmatch⟩ := starMatch_cons (by decide) hmatch
  obtain ⟨rest, hcolon, -⟩ := starMatch_cons (by decide) hmatch
  exact ⟨rest, by rw [hk, hv, hcolon]; rfl⟩

theorem provisioned_found : Always (Operation.apply .starred) (LookupConsistent .starred)
    [.call (.provisionDevice ['r'] ['d'] ['a'] ['s']), .lookup [] ['d']] World.empty := by
  refine lookup_consistent .starred globLiteral_starMatch _ ⟨⟨?_, ?_⟩, ⟨?_, ?_⟩, trivial⟩
  · intro request hrequest
    obtain rfl := Operation.call.inj hrequest
    intro _ _
    decide
  · intro r cfg env hrestore
    cases hrestore
  · intro request hrequest
    cases hrequest
  · intro r cfg env hrestore
    cases hrestore

-- A revoked device is found again by a value that is left of it.
theorem revoked_found : ¬ Always (Operation.apply .starred) (LookupConsistent .starred)
    [.call (.provisionDevice ['r'] ['d'] ['a'] ['s']),
      .call (.setKv ['r'] "a/d/x".toList ⟨['1'], false⟩),
      .call (.revokeClient ['r'] ['d'])] World.empty := by
  rintro ⟨-, -, -, hlast⟩
  obtain ⟨⟨secret, hsecret⟩, -⟩ := hlast [kvKey "a/d/x".toList] ['d'] ['a'] rfl
  cases hsecret

end Runs

end Stra2us.Admin
