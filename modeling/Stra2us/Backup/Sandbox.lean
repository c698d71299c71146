import Stra2us.Acl.Provision
import Stra2us.Backup.Effects

namespace Stra2us.Backup

open Foundation Server Acl

section Predicates

variable {app key : Text}

theorem kvKeyBelongsToApp_text : kvKeyBelongsToApp (.text key) app = true ↔ OfApp app key := by
  simp only [kvKeyBelongsToApp, Str.isText, Str.startsWith, Str.text.injEq, Bool.or_eq_true,
    decide_eq_true_eq, OfApp, Within, or_assoc]

theorem queueTopicBelongsToApp_text : queueTopicBelongsToApp (.text key) app = true ↔
    Within app key := by
  simp only [queueTopicBelongsToApp, Str.isText, Str.startsWith, Str.text.injEq, Bool.or_eq_true,
    decide_eq_true_eq, Within]

end Predicates

section Belonging

variable (cfg : Restoring) (app : Text) (s : Store)

-- A stored ACL is the app's when some of its permissions are.
def AclOfApp (raw : Bytes) : Prop :=
  ∃ acl, loadRecord cfg.jsonDepth raw = .ok acl ∧ clientMatchesApp acl app = .ok true

-- The client's record is the app's, or there is none.
def ClientOfApp (clientId : Text) : Prop :=
  (s.get (clientSecretKey clientId) = none ∧ s.get (clientAclKey clientId) = none) ∨
    ∃ raw, s.get (clientAclKey clientId) = some raw ∧ AclOfApp cfg app raw

def AdminOfApp (user : Text) : Prop :=
  s.get (adminAclKey user) = none ∨
    ∃ raw, s.get (adminAclKey user) = some raw ∧ AclOfApp cfg app raw

-- What a restore of the app may touch: its values with their flags, its queues, and records
-- that are its own or not there. The activity log belongs to nobody.
def Belongs : Slot → Prop
  | .secret clientId | .acl clientId => ClientOfApp cfg app s clientId
  | .adminAcl user => AdminOfApp cfg app s user
  | .kv key => OfApp app key ∨ ∃ base, key = flagOf base ∧ OfApp app base
  | .queue topic => Within app topic
  | .deviceToApp clientId =>
      s.get (deviceToAppKey clientId) = none ∨ s.get (deviceToAppKey clientId) = some (utf8 app)
  | .activityLog => False

-- Nothing but what belongs to the app has changed.
def Sandboxed (s' : Store) : Prop :=
  ∀ key, (∀ slot : Slot, slot.key = key → ¬ Belongs cfg app s slot) → s'.peek key = s.peek key

end Belonging

section Sandbox

variable {cfg : Restoring} {env : BackupEnvelope} {app : Text} {store : Store}

theorem refuses_of_filter (hfilter : cfg.appFilter = some app) (happ : app ≠ [])
    (belongs : Text → Except Exn Bool) : cfg.refuses belongs = (belongs app).map (!·) := by
  obtain ⟨c, rest, rfl⟩ := List.exists_cons_of_ne_nil happ
  unfold Restoring.refuses
  rw [hfilter]

-- Values that are not the app's are turned away.
theorem belongs_of_accepts_kv (hfilter : cfg.appFilter = some app) (happ : app ≠ []) {key : Str}
    {record : KvRecord} {name : Text} (haccepts : (restoreKv cfg key record).Accepts name) :
    key = .text name ∧ OfApp app name := by
  obtain ⟨hrefused, hname⟩ := haccepts
  obtain rfl := Str.encode_ok.mp hname
  refine ⟨rfl, kvKeyBelongsToApp_text.mp ?_⟩
  have hcheck : cfg.refuses (fun app => .ok (kvKeyBelongsToApp (.text name) app)) = .ok false :=
    hrefused
  rw [refuses_of_filter hfilter happ] at hcheck
  simpa [Except.map] using hcheck

theorem peek_kv_foreign (hfilter : cfg.appFilter = some app) (happ : app ≠ []) {key : Text}
    (hforeign : ¬ Belongs cfg app store (.kv key)) (item : Item) (s : State) :
    (restoreItem cfg item s).2.store.peek (kvKey key) = s.store.peek (kvKey key) := by
  by_cases hkv : item.IsKv
  · cases item with
    | kv k record =>
        apply Task.peek_run
        intro name haccepts existed s'
        obtain ⟨rfl, hof⟩ := belongs_of_accepts_kv hfilter happ haccepts
        refine Item.peek_write cfg (.kv (.text name) record) ?_ name haccepts existed s'
        intro slot hslot hkey
        have hslot' : slot = .kv key := Slot.key_injective hkey
        subst hslot'
        rcases List.mem_pair.mp hslot with h | h
        · obtain rfl := Slot.kv.inj h
          exact hforeign (.inl hof)
        · exact hforeign (.inr ⟨name, Slot.kv.inj h, hof⟩)
    | _ => exact absurd hkv id
  · refine peek_restoreItem cfg item ?_ s
    intro slot hslot hkey
    have hslot' : slot = .kv key := Slot.key_injective hkey
    exact not_isKv_of_mem_slots hkv slot hslot ⟨key, hslot'⟩

-- The records of an entry belong together.
theorem belongs_all {item : Item} (hkv : ¬ item.IsKv) {slot : Slot} (hslot : slot ∈ item.slots)
    (h : Belongs cfg app store slot) : ∀ other ∈ item.slots, Belongs cfg app store other := by
  intro other hother
  cases item with
  | kv key record => exact absurd trivial hkv
  | client cid record =>
      cases cid with
      | surrogates units => exact absurd hslot List.not_mem_nil
      | text id =>
          rcases List.mem_pair.mp hslot with rfl | rfl <;>
            rcases List.mem_pair.mp hother with rfl | rfl <;> exact h
  | activityLog entries =>
      rw [List.mem_singleton.mp hslot] at h
      rw [List.mem_singleton.mp hother]
      exact h
  | adminAcl name _ | queue name _ | deviceToApp name _ =>
      cases name with
      | surrogates units => exact absurd hslot List.not_mem_nil
      | text name =>
          rw [List.mem_singleton.mp hslot] at h
          rw [List.mem_singleton.mp hother]
          exact h

theorem sandboxed_of_contained (hfilter : cfg.appFilter = some app) (happ : app ≠ [])
    (h : ∀ before item after, env.items = before ++ item :: after →
      (∀ b ∈ before, b.Fits cfg store) →
        item.Idle cfg store ∨ ∀ slot ∈ item.slots, Belongs cfg app store slot) :
    Sandboxed cfg app store (applyEnvelope cfg env store).2 := by
  intro key hkey
  by_cases hslot : ∃ slot : Slot, slot.key = key
  · obtain ⟨slot, rfl⟩ := hslot
    have hforeign := hkey slot rfl
    by_cases hkv : slot.IsKv
    · obtain ⟨k, rfl⟩ := hkv
      exact batch_keeps (fun a b : State => b.store.peek (kvKey k) = a.store.peek (kvKey k))
        (fun _ => rfl)
        (fun a b c (hab : b.store.peek (kvKey k) = a.store.peek (kvKey k))
          (hbc : c.store.peek (kvKey k) = b.store.peek (kvKey k)) => hbc.trans hab)
        (fun item _ s => peek_kv_foreign hfilter happ hforeign item s) (.start store)
    · by_contra hchanged
      obtain ⟨before, item, hreaches, hslot⟩ := exists_reaches_of_changed hkv hchanged
      obtain ⟨⟨after, hsplit⟩, hbefore⟩ := reaches_iff_fits.mp hreaches
      have hitemKv : ¬ item.IsKv := not_isKv_of_mem_slot hslot hkv
      rcases h before item after hsplit hbefore with hidle | hbelongs
      · exact hchanged ((idle_of_reaches hreaches hitemKv).mpr hidle slot hslot)
      · exact hforeign (hbelongs slot hslot)
  · refine peek_batch cfg ?_ (.start store)
    intro item hmem other hother hkey
    exact hslot ⟨other, hkey⟩

theorem contained_of_sandboxed (h : Sandboxed cfg app store (applyEnvelope cfg env store).2)
    (before : List Item) {after : List Item} {item : Item} (hsplit : env.items = before ++ item :: after)
    (hbefore : ∀ b ∈ before, b.Fits cfg store) :
    item.Idle cfg store ∨ ∀ slot ∈ item.slots, Belongs cfg app store slot := by
  by_cases hkv : item.IsKv
  · refine .inl ?_
    intro name haccepts hskips p hp
    exact absurd hkv (not_isKv_of_leaves hp)
  · by_cases hall : ∀ slot ∈ item.slots, Belongs cfg app store slot
    · exact .inr hall
    · refine .inl ?_
      have hreaches := reaches_iff_fits.mpr ⟨⟨after, hsplit⟩, hbefore⟩
      refine (idle_of_reaches hreaches hkv).mp ?_
      intro slot hslot
      refine h slot.key ?_
      intro other hkey hbelongs
      obtain rfl := Slot.key_injective hkey
      exact hall (belongs_all hkv hslot hbelongs)

-- Put together: the restore of an app keeps to the app when every entry it gets to is one it
-- turns away or skips, or leaves what is there, or is about records of the app.
theorem sandboxed_iff (env : BackupEnvelope) (store : Store) (hfilter : cfg.appFilter = some app)
    (happ : app ≠ []) :
    Sandboxed cfg app store (applyEnvelope cfg env store).2 ↔
      ∀ before item after, env.items = before ++ item :: after →
        (∀ b ∈ before, b.Fits cfg store) →
          item.Idle cfg store ∨ ∀ slot ∈ item.slots, Belongs cfg app store slot := by
  constructor
  · intro h before item after hsplit hbefore
    exact contained_of_sandboxed h before hsplit hbefore
  · exact sandboxed_of_contained hfilter happ

def prefixAcl (pre : Text) : Value :=
  permissionsAcl [permission pre "rw".toList]

-- A document that holds one client, of the app `a`.
def takeover : Value :=
  object [("stra2us_backup_version".toList, .int 1), ("dump_kind".toList, .str "whole".toList),
    ("data".toList, object [("clients".toList, object [(['c'],
      object [("secret".toList, .str ['f', 'f']), ("acl".toList, prefixAcl ['a'])])])])]

theorem textual_prefixAcl (depth : Nat) (pre : Text) : Json.Textual (depth + 3) (prefixAcl pre) := by
  apply textual_permissionsAcl
  intro perm hperm
  obtain rfl := List.mem_singleton.mp hperm
  exact textual_permission _ _ _

theorem exists_dumps (cfg : Restoring) {acl : Value} (h : Json.Textual cfg.jsonDepth acl) :
    ∃ raw, cfg.dumps acl = .ok raw ∧ loadRecord cfg.jsonDepth raw = .ok acl := by
  obtain ⟨text, hdumps, hloads⟩ := h.loads_dumps
  refine ⟨utf8 text, ?_, ?_⟩
  · simp only [Restoring.dumps, hdumps]
  · simp only [loadRecord, utf8Decode_utf8, hloads]

-- There is a client of that name, of the app `b`.
def occupied : Store :=
  (Store.empty.set (clientSecretKey ['c']) (utf8 ['0', '0'])).set (clientAclKey ['c'])
    ((Restoring.forced.dumps (prefixAcl ['b'])).toOption.getD [])

theorem sandboxed_takeover_iff : ∃ env, BackupEnvelope.fromJson (fun _ => .text []) takeover = .ok env ∧
    (Sandboxed .forced ['a'] occupied (applyEnvelope .forced env occupied).2 ↔
      ∀ before item after, env.items = before ++ item :: after →
        (∀ b ∈ before, b.Fits .forced occupied) →
          item.Idle .forced occupied ∨ ∀ slot ∈ item.slots, Belongs .forced ['a'] occupied slot) :=
  ⟨_, rfl, sandboxed_iff _ occupied rfl (List.cons_ne_nil 'a' [])⟩

-- The client of the one app is made a client of the other.
theorem takeover_not_sandboxed :
    ∃ env, BackupEnvelope.fromJson (fun _ => .text []) takeover = .ok env ∧
      ¬ Sandboxed .forced ['a'] occupied (applyEnvelope .forced env occupied).2 := by
  refine ⟨_, rfl, ?_⟩
  intro h
  obtain ⟨stored, hdumps, hloads⟩ := exists_dumps .forced (textual_prefixAcl 5 ['b'])
  have hacl : occupied.get (clientAclKey ['c']) = some stored := by
    unfold occupied
    rw [Store.get_set_self, hdumps]
    rfl
  have hold : occupied.get (clientSecretKey ['c']) = some (utf8 ['0', '0']) := by
    unfold occupied
    rw [Store.get_set_of_ne _ (Slot.clientSecretKey_ne_clientAclKey _ _), Store.get_set_self]
  have hforeign : ∀ slot : Slot, slot.key = (Slot.secret ['c']).key →
      ¬ Belongs .forced ['a'] occupied slot := by
    intro slot hkey hbelongs
    obtain rfl := Slot.key_injective hkey
    rcases hbelongs with ⟨hnone, -⟩ | ⟨raw, hraw, acl, hload, hmatches⟩
    · rw [hold] at hnone
      cases hnone
    · obtain rfl := Option.some.inj (hacl.symm.trans hraw)
      obtain rfl := Except.ok.inj (hloads.symm.trans hload)
      cases hmatches
  have hcontained := contained_of_sandboxed h [] rfl (by simp)
  rcases hcontained with hidle | hbelongs
  · have hkept := hidle ['c'] ⟨rfl, rfl⟩ (fun hskips => nomatch hskips.2) _ List.mem_cons_self
    have hnew : occupied.get (clientSecretKey ['c']) = some (utf8 ['f', 'f']) :=
      congrArg Prod.fst hkept
    rw [hold] at hnew
    exact absurd hnew (by decide)
  · exact hforeign _ rfl (hbelongs (.secret ['c']) (by simp [Item.slots]))

end Sandbox

end Stra2us.Backup
