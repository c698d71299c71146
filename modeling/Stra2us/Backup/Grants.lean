import Stra2us.Acl.Confine
import Stra2us.Backup.Collect
import Stra2us.Backup.Sandbox

namespace Stra2us.Backup

open Foundation Server Acl

section Written

-- The ACL an entry brings along.
def Item.acl? : Item → Option Value
  | .client _ record => some record.acl
  | .adminAcl _ acl => some acl
  | _ => none

def Slot.HoldsAcl : Slot → Prop
  | .acl _ | .adminAcl _ => True
  | _ => False

variable (cfg : Restoring) (env : BackupEnvelope) (store : Store)

-- The run gets to an entry that leaves this ACL there.
def WritesAcl (slot : Slot) (acl : Value) : Prop :=
  ∃ before item name raw, Foundation.Reaches (restoreItem cfg) env.items before item (.start store) ∧
    item.acl? = some acl ∧ (item.task cfg).Accepts name ∧
    ¬ (item.task cfg).Skips cfg.forceOverwrite name
      (batch (restoreItem cfg) before (.start store)).2.store ∧
    cfg.dumps acl = .ok raw ∧ slot.HoldsAcl ∧
    ∃ stream?, (slot, (some raw, stream?)) ∈
      item.leaves cfg (batch (restoreItem cfg) before (.start store)).2.store

-- The entry is neither turned away nor skipped, and what it holds can be stored.
def Item.Restores (s : Store) (item : Item) : Prop :=
  ∃ name, (item.task cfg).Accepts name ∧ ¬ (item.task cfg).Skips cfg.forceOverwrite name s ∧
    item.Storable cfg

variable {cfg env store} {item : Item} {acl : Value} {slot : Slot} {s : Store}

theorem not_isKv_of_holdsAcl (h : slot.HoldsAcl) : ¬ slot.IsKv := by
  rintro ⟨key, rfl⟩
  exact h

theorem not_isKv_of_acl (h : item.acl? = some acl) : ¬ item.IsKv := by
  intro hkv
  cases item with
  | kv key record => cases h
  | _ => exact hkv

-- An ACL is left by an entry that can be stored whole, and nowhere else.
theorem exists_leaves_iff {name : Text} (hacl : item.acl? = some acl)
    (haccepts : (item.task cfg).Accepts name) :
    (∃ slot raw stream?, cfg.dumps acl = .ok raw ∧ slot.HoldsAcl ∧
      (slot, (some raw, stream?)) ∈ item.leaves cfg s) ↔ item.Storable cfg := by
  have hname := haccepts.2
  cases item with
  | client cid record =>
      obtain rfl := Str.encode_ok.mp hname
      obtain ⟨secret, acl⟩ := record
      obtain rfl := Option.some.inj hacl
      cases secret with
      | surrogates units => simp [Item.leaves, Item.Storable]
      | text secret =>
          cases hdumps : cfg.dumps acl with
          | error exn => simp [Item.Storable, hdumps]
          | ok raw =>
              refine iff_of_true ⟨.acl name, raw, s.stream? (clientAclKey name), rfl, trivial, ?_⟩
                ⟨⟨secret, rfl⟩, raw, hdumps⟩
              simp [Item.leaves, hdumps]
  | adminAcl user acl' =>
      obtain rfl := Str.encode_ok.mp hname
      obtain rfl := Option.some.inj hacl
      cases hdumps : cfg.dumps acl' with
      | error exn => simp [Item.Storable, hdumps]
      | ok raw =>
          refine iff_of_true ⟨.adminAcl name, raw, s.stream? (adminAclKey name), rfl, trivial, ?_⟩
            ⟨raw, hdumps⟩
          simp [Item.leaves, hdumps]
  | _ => cases hacl

theorem writesAcl_iff : (∃ slot, WritesAcl cfg env store slot acl) ↔
    ∃ before item after, env.items = before ++ item :: after ∧ (∀ b ∈ before, b.Fits cfg store) ∧
      item.acl? = some acl ∧ item.Restores cfg store := by
  have hskips {before : List Item} {item : Item} {name : Text} (hacl : item.acl? = some acl)
      (hreaches : Foundation.Reaches (restoreItem cfg) env.items before item (.start store))
      (haccepts : (item.task cfg).Accepts name) :
      (item.task cfg).Skips cfg.forceOverwrite name
        (batch (restoreItem cfg) before (.start store)).2.store ↔
      (item.task cfg).Skips cfg.forceOverwrite name store := by
    have hslots := not_isKv_of_mem_slots (not_isKv_of_acl hacl)
    unfold Task.Skips
    rw [Item.present_congr haccepts fun slot hslot => peek_before hreaches hslot (hslots slot hslot)]
  constructor
  · rintro ⟨slot, before, item, name, raw, hreaches, hacl, haccepts, hnot, hdumps, hholds, hleaves⟩
    obtain ⟨⟨after, hsplit⟩, hbefore⟩ := reaches_iff_fits.mp hreaches
    refine ⟨before, item, after, hsplit, hbefore, hacl, name, haccepts, ?_, ?_⟩
    · rwa [← hskips hacl hreaches haccepts]
    · obtain ⟨stream?, hmem⟩ := hleaves
      exact (exists_leaves_iff hacl haccepts).mp ⟨slot, raw, stream?, hdumps, hholds, hmem⟩
  · rintro ⟨before, item, after, hsplit, hbefore, hacl, name, haccepts, hnot, hstorable⟩
    have hreaches := reaches_iff_fits.mpr ⟨⟨after, hsplit⟩, hbefore⟩
    obtain ⟨slot, raw, stream?, hdumps, hholds, hmem⟩ :=
      (exists_leaves_iff (s := (batch (restoreItem cfg) before (.start store)).2.store)
        hacl haccepts).mpr hstorable
    refine ⟨slot, before, item, name, raw, hreaches, hacl, haccepts, ?_, hdumps, hholds, stream?, hmem⟩
    rwa [hskips hacl hreaches haccepts]

theorem restoreItem_written {name : Text} {s : State} (haccepts : (item.task cfg).Accepts name)
    (hskips : ¬ (item.task cfg).Skips cfg.forceOverwrite name s.store) :
    (restoreItem cfg item s).2.store =
      ((item.task cfg).write name ((item.task cfg).present name s.store) s.store).2 :=
  (Task.run_written haccepts hskips).2.1

theorem writes_of_changed {key : Text} {s : State}
    (hchanged : (restoreItem cfg item s).2.store.peek key ≠ s.store.peek key) :
    ∃ name, (item.task cfg).Accepts name ∧
      ¬ (item.task cfg).Skips cfg.forceOverwrite name s.store ∧
      ((item.task cfg).write name ((item.task cfg).present name s.store) s.store).2.peek key ≠
        s.store.peek key := by
  rcases (item.task cfg).run_cases with hrefused | ⟨exn, hstopped⟩ | ⟨name, haccepts⟩
  · unfold restoreItem at hchanged
    rw [Task.run_rejected hrefused] at hchanged
    exact absurd rfl hchanged
  · unfold restoreItem at hchanged
    rw [Task.run_stopped hstopped] at hchanged
    exact absurd rfl hchanged
  · by_cases hskips : (item.task cfg).Skips cfg.forceOverwrite name s.store
    · unfold restoreItem at hchanged
      rw [Task.run_skipped haccepts hskips] at hchanged
      exact absurd rfl hchanged
    · rw [restoreItem_written haccepts hskips] at hchanged
      exact ⟨name, haccepts, hskips, hchanged⟩

-- What is written is there at the end.
theorem WritesAcl.get (h : WritesAcl cfg env store slot acl) :
    ∃ raw, cfg.dumps acl = .ok raw ∧ (applyEnvelope cfg env store).2.get slot.key = some raw := by
  obtain ⟨before, item, name, raw, hreaches, hacl, haccepts, hnot, hdumps, hholds, stream?, hmem⟩ := h
  have hslot := (Item.mem_slots_of_leaves hmem).1
  refine ⟨raw, hdumps, ?_⟩
  have hafter := peek_after hreaches hslot (not_isKv_of_holdsAcl hholds)
  rw [restoreItem_written haccepts hnot, Item.peek_leaves haccepts hmem] at hafter
  exact congrArg Prod.fst hafter

-- A write that changes an ACL leaves the one that the entry brings.
theorem exists_leaves_of_changed {name : Text} (haccepts : (item.task cfg).Accepts name)
    (hslot : slot ∈ item.slots) (hholds : slot.HoldsAcl)
    (hchanged : ((item.task cfg).write name ((item.task cfg).present name s) s).2.peek slot.key ≠
      s.peek slot.key) :
    ∃ acl raw stream?, item.acl? = some acl ∧ cfg.dumps acl = .ok raw ∧
      (slot, (some raw, stream?)) ∈ item.leaves cfg s := by
  have hkv := not_isKv_of_holdsAcl hholds
  obtain ⟨p, hp, rfl⟩ : ∃ p ∈ item.leaves cfg s, p.1 = slot := by
    by_contra hnone
    refine hchanged (Item.peek_not_left haccepts hslot hkv ?_)
    intro p hp heq
    exact hnone ⟨p, hp, heq⟩
  cases item with
  | client cid record =>
      obtain rfl := Str.encode_ok.mp haccepts.2
      obtain ⟨secret, acl⟩ := record
      cases secret with
      | surrogates units => exact absurd hp List.not_mem_nil
      | text secret =>
          rcases List.mem_cons.mp hp with rfl | hp
          · exact absurd hholds id
          · cases hdumps : cfg.dumps acl with
            | error exn => simp [hdumps] at hp
            | ok raw =>
                simp only [hdumps, List.mem_singleton] at hp
                subst hp
                refine ⟨acl, raw, s.stream? (clientAclKey name), rfl, hdumps, ?_⟩
                simp [Item.leaves, hdumps]
  | adminAcl user acl =>
      obtain rfl := Str.encode_ok.mp haccepts.2
      unfold Item.leaves at hp
      cases hdumps : cfg.dumps acl with
      | error exn => simp [hdumps] at hp
      | ok raw =>
          simp only [hdumps, List.mem_singleton] at hp
          subst hp
          refine ⟨acl, raw, s.stream? (adminAclKey name), rfl, hdumps, ?_⟩
          simp [Item.leaves, hdumps]
  | kv key record => exact absurd hp List.not_mem_nil
  | queue topic entries =>
      obtain rfl := Str.encode_ok.mp haccepts.2
      obtain rfl := List.mem_singleton.mp hp
      exact absurd hholds id
  | deviceToApp cid app =>
      obtain rfl := Str.encode_ok.mp haccepts.2
      cases app with
      | surrogates units => exact absurd hp List.not_mem_nil
      | text app =>
          obtain rfl := List.mem_singleton.mp hp
          exact absurd hholds id
  | activityLog entries =>
      obtain rfl := List.mem_singleton.mp hp
      exact absurd hholds id

-- And an ACL that is not as it was has been written.
theorem exists_writesAcl (hholds : slot.HoldsAcl)
    (hchanged : (applyEnvelope cfg env store).2.peek slot.key ≠ store.peek slot.key) :
    ∃ acl, WritesAcl cfg env store slot acl := by
  have hkv := not_isKv_of_holdsAcl hholds
  obtain ⟨before, item, hreaches, hslot⟩ := exists_reaches_of_changed hkv hchanged
  rw [peek_after hreaches hslot hkv, ← peek_before hreaches hslot hkv] at hchanged
  obtain ⟨name, haccepts, hskips, hwrite⟩ := writes_of_changed hchanged
  obtain ⟨acl, raw, stream?, hacl, hdumps, hmem⟩ :=
    exists_leaves_of_changed haccepts hslot hholds hwrite
  exact ⟨acl, before, item, name, raw, hreaches, hacl, haccepts, hskips, hdumps, hholds, stream?,
    hmem⟩

end Written

section Collected

variable (depth : Nat) (app : Text) (s : Store)

-- The store keeps this ACL for a client that has a secret, or for an admin.
inductive Keeps : Value → Prop
  | client {clientId : Text} {secret raw : Bytes} {acl : Value}
      (hsecret : s.get (clientSecretKey clientId) = some secret)
      (hraw : s.get (clientAclKey clientId) = some raw)
      (hacl : loadRecord depth raw = .ok acl) : Keeps acl
  | admin {user : Text} {raw : Bytes} {acl : Value}
      (hraw : s.get (adminAclKey user) = some raw)
      (hacl : loadRecord depth raw = .ok acl) : Keeps acl

def BackupEnvelope.Holds (env : BackupEnvelope) (acl : Value) : Prop :=
  (∃ name record, (name, record) ∈ env.clients.entries ∧ record.acl = acl) ∨
    ∃ name, (name, acl) ∈ env.adminAcls.entries

variable {depth app s} {acl : Value} {raw : Bytes}

theorem not_clientMatchesApp_empty : clientMatchesApp (.dict []) app ≠ .ok true := by
  intro h
  cases h

theorem holds_client_iff {clients : Dict Str ClientRecord}
    (h : collectClients depth s (some app) = .ok clients) :
    (∃ name record, (name, record) ∈ clients.entries ∧ record.acl = acl) ↔
      (∃ clientId secret raw, s.get (clientSecretKey clientId) = some secret ∧
        s.get (clientAclKey clientId) = some raw ∧ loadRecord depth raw = .ok acl) ∧
          clientMatchesApp acl app = .ok true := by
  have hnodup := nodup_scanStrings s "client:".toList ":secret".toList
  constructor
  · rintro ⟨name, record, hmem, rfl⟩
    obtain ⟨clientId, hscan, -, hfound⟩ := (mem_collectEach hnodup h).mp hmem
    obtain ⟨secret, hsecret⟩ := (mem_scanStrings s).mp hscan
    obtain ⟨text, acl, keep, -, hacl, hkeep, hrecord⟩ := collectClient_ok_iff.mp hfound
    cases keep with
    | false => cases hrecord
    | true =>
        cases hrecord
        rcases storedAcl_ok_iff.mp hacl with ⟨raw, hraw, hloads⟩ | ⟨-, rfl⟩
        · exact ⟨⟨clientId, secret, raw, hsecret, hraw, hloads⟩, hkeep⟩
        · exact absurd hkeep not_clientMatchesApp_empty
  · rintro ⟨⟨clientId, secret, raw, hsecret, hraw, hloads⟩, hmatches⟩
    have hscan : clientId ∈ scanStrings s "client:".toList ":secret".toList :=
      (mem_scanStrings s).mpr ⟨secret, hsecret⟩
    obtain ⟨found, hfound⟩ := collectEach_ok h clientId hscan
    obtain ⟨text, acl', keep, -, hacl, hkeep, hrecord⟩ := collectClient_ok_iff.mp hfound
    have hstored := storedAcl_ok_iff.mpr (.inl ⟨raw, hraw, hloads⟩)
    obtain rfl := Except.ok.inj (hacl.symm.trans hstored)
    obtain rfl : keep = true := Except.ok.inj (hkeep.symm.trans hmatches)
    rw [if_pos rfl] at hrecord
    subst hrecord
    exact ⟨.text clientId, _, (mem_collectEach hnodup h).mpr ⟨clientId, hscan, rfl, hfound⟩, rfl⟩

theorem holds_admin_iff {adminAcls : Dict Str Value}
    (h : collectAdminAcls depth s (some app) = .ok adminAcls) :
    (∃ name, (name, acl) ∈ adminAcls.entries) ↔
      (∃ user raw, s.get (adminAclKey user) = some raw ∧ loadRecord depth raw = .ok acl) ∧
        clientMatchesApp acl app = .ok true := by
  have hnodup := nodup_scanStrings s "admin_acls:".toList []
  have hkey (user : Text) : "admin_acls:".toList ++ user ++ [] = adminAclKey user :=
    List.append_nil _
  constructor
  · rintro ⟨name, hmem⟩
    obtain ⟨user, -, -, hfound⟩ := (mem_collectEach hnodup h).mp hmem
    obtain ⟨raw, hraw, hloads, hmatches⟩ := collectAdminAcl_ok_iff.mp hfound
    exact ⟨⟨user, raw, hraw, hloads⟩, hmatches⟩
  · rintro ⟨⟨user, raw, hraw, hloads⟩, hmatches⟩
    have hscan : user ∈ scanStrings s "admin_acls:".toList [] := by
      rw [mem_scanStrings, hkey]
      exact ⟨raw, hraw⟩
    exact ⟨.text user, (mem_collectEach hnodup h).mpr ⟨user, hscan, rfl,
      collectAdminAcl_ok_iff.mpr ⟨raw, hraw, hloads, hmatches⟩⟩⟩

-- The dump of an app holds the ACLs that match it.
theorem holds_iff {env : BackupEnvelope} {includeLogs : Bool} {exportedAt : Text}
    (h : collectPerAppEnvelope depth s app includeLogs exportedAt = .ok env) :
    env.Holds acl ↔ Keeps depth s acl ∧ clientMatchesApp acl app = .ok true := by
  obtain ⟨clients, adminAcls, deviceToApp, log, hclients, hadmins, -, -, rfl⟩ :=
    collectPerApp_ok_iff.mp h
  unfold BackupEnvelope.Holds
  rw [holds_client_iff hclients, holds_admin_iff hadmins, ← or_and_right]
  refine and_congr_left fun _ => ?_
  constructor
  · rintro (⟨clientId, secret, raw, hsecret, hraw, hacl⟩ | ⟨user, raw, hraw, hacl⟩)
    · exact .client hsecret hraw hacl
    · exact .admin hraw hacl
  · intro hkeeps
    cases hkeeps with
    | client hsecret hraw hacl => exact .inl ⟨_, _, _, hsecret, hraw, hacl⟩
    | admin hraw hacl => exact .inr ⟨_, _, hraw, hacl⟩

end Collected

section Grants

def Restoring.forApp (cfg : Restoring) (app : Text) : Restoring :=
  { cfg with appFilter := some app }

-- Put together: the ACLs a restore changes are ones it writes; those it writes for an app,
-- and those a dump of the app holds, give access to the app alone exactly when every
-- prefix they list is the app's own.
theorem grants_confined_iff (cfg : Restoring) (app : Text) (store : Store) :
    (∀ env (slot : Slot), slot.HoldsAcl →
      (applyEnvelope (cfg.forApp app) env store).2.peek slot.key ≠ store.peek slot.key →
        ∃ acl raw, WritesAcl (cfg.forApp app) env store slot acl ∧ cfg.dumps acl = .ok raw ∧
          (applyEnvelope (cfg.forApp app) env store).2.get slot.key = some raw) ∧
    (∀ env, (∀ slot acl, WritesAcl (cfg.forApp app) env store slot acl → AuthorizesOnly app acl) ↔
      ∀ before item after acl, env.items = before ++ item :: after →
        (∀ b ∈ before, b.Fits (cfg.forApp app) store) → item.acl? = some acl →
          item.Restores (cfg.forApp app) store → Confined app acl) ∧
    ∀ env includeLogs exportedAt,
      collectPerAppEnvelope cfg.jsonDepth store app includeLogs exportedAt = .ok env →
        ((∀ acl, env.Holds acl → AuthorizesOnly app acl) ↔
          ∀ acl, Keeps cfg.jsonDepth store acl → clientMatchesApp acl app = .ok true →
            Confined app acl) := by
  refine ⟨?_, ?_, ?_⟩
  · intro env slot hholds hchanged
    obtain ⟨acl, hwrites⟩ := exists_writesAcl hholds hchanged
    obtain ⟨raw, hdumps, hget⟩ := hwrites.get
    exact ⟨acl, raw, hwrites, hdumps, hget⟩
  · intro env
    simp only [authorizesOnly_iff_confined]
    constructor
    · intro h before item after acl hsplit hbefore hacl hrestores
      obtain ⟨slot, hwrites⟩ := writesAcl_iff.mpr ⟨before, item, after, hsplit, hbefore, hacl, hrestores⟩
      exact h slot acl hwrites
    · intro h slot acl hwrites
      obtain ⟨before, item, after, hsplit, hbefore, hacl, hrestores⟩ :=
        writesAcl_iff.mp ⟨slot, hwrites⟩
      exact h before item after acl hsplit hbefore hacl hrestores
  · intro env includeLogs exportedAt hcollected
    simp only [authorizesOnly_iff_confined, holds_iff hcollected, and_imp]

theorem grants_confined_empty :
    (∀ acl, WritesAcl (Restoring.forced.forApp ['a'])
      ⟨.whole, .none, .none, .empty, .empty, .empty, .empty, none, .empty⟩ .empty (.acl ['c']) acl →
        AuthorizesOnly ['a'] acl) ∧
    ∃ env, collectPerAppEnvelope 8 .empty ['a'] false [] = .ok env ∧
      ((∀ acl, env.Holds acl → AuthorizesOnly ['a'] acl) ↔
        ∀ acl, Keeps 8 .empty acl → clientMatchesApp acl ['a'] = .ok true → Confined ['a'] acl) := by
  have hconfined := grants_confined_iff .forced ['a'] .empty
  refine ⟨fun acl => (hconfined.2.1 _).mpr ?_ (.acl ['c']) acl, _, rfl, hconfined.2.2 _ false [] rfl⟩
  intro before item after acl hsplit
  exact absurd hsplit (by simp [BackupEnvelope.items, Dict.empty])

-- A client of two apps.
def sharedAcl : Value :=
  permissionsAcl [permission ['a'] "rw".toList, permission ['b'] "rw".toList]

def sharedClient : Value :=
  object [("stra2us_backup_version".toList, .int 1), ("dump_kind".toList, .str "whole".toList),
    ("data".toList, object [("clients".toList, object [(['c'],
      object [("secret".toList, .str ['f', 'f']), ("acl".toList, sharedAcl)])])])]

theorem textual_sharedAcl (depth : Nat) : Json.Textual (depth + 3) sharedAcl := by
  apply textual_permissionsAcl
  intro perm hperm
  simp only [List.mem_cons, List.not_mem_nil, or_false] at hperm
  rcases hperm with rfl | rfl
  · exact textual_permission _ _ _
  · exact textual_permission _ _ _

-- The restore of the one app brings back its access to the other.
theorem shared_not_confined :
    ∃ env, BackupEnvelope.fromJson (fun _ => .text []) sharedClient = .ok env ∧
      WritesAcl (Restoring.forced.forApp ['a']) env .empty (.acl ['c']) sharedAcl ∧
      checkAcl sharedAcl "kv/b".toList .write = .ok () ∧ ¬ AuthorizesOnly ['a'] sharedAcl := by
  refine ⟨_, rfl, ?_, rfl, ?_⟩
  · obtain ⟨raw, hdumps, -⟩ := exists_dumps .forced (textual_sharedAcl 5)
    refine ⟨[], _, ['c'], raw, ⟨⟨[], rfl⟩, rfl⟩, rfl, ⟨rfl, rfl⟩, ?_, hdumps, trivial, none, ?_⟩
    · rintro ⟨-, hforce⟩
      cases hforce
    · have hdumps' : (Restoring.forced.forApp ['a']).dumps sharedAcl = .ok raw := hdumps
      change _ ∈ Item.leaves (Restoring.forced.forApp ['a']) .empty
        (.client (.text ['c']) ⟨.text ['f', 'f'], sharedAcl⟩)
      simp only [Item.leaves, hdumps']
      exact List.mem_cons_of_mem _ (List.mem_singleton.mpr rfl)
  · intro h
    rcases h (.kv ['b']) ⟨.write, rfl⟩ with hplain | halias
    · rcases within_iff.mp hplain with heq | ⟨rest, heq⟩
      · cases heq
      · cases heq
    · rcases within_iff.mp halias with heq | ⟨rest, heq⟩
      · cases heq
      · cases heq

end Grants

end Stra2us.Backup
