import Stra2us.Backup.Apply

namespace Stra2us.Backup

open Foundation Server

-- The records a backup is about. The flag of an encrypted value is a record like another.
inductive Slot
  | secret (clientId : Text)
  | acl (clientId : Text)
  | adminAcl (user : Text)
  | kv (key : Text)
  | queue (topic : Text)
  | deviceToApp (clientId : Text)
  | activityLog
deriving DecidableEq, Repr

def flagOf (key : Text) : Text := key ++ ":enc".toList

namespace Slot

def key : Slot → Text
  | .secret clientId => clientSecretKey clientId
  | .acl clientId => clientAclKey clientId
  | .adminAcl user => adminAclKey user
  | .kv key => kvKey key
  | .queue topic => queueKey topic
  | .deviceToApp clientId => deviceToAppKey clientId
  | .activityLog => activityLogKey

def flag (key : Text) : Slot := .kv (flagOf key)

theorem key_flag (key : Text) : (Slot.flag key).key = encKey key := by
  simp [Slot.key, flag, flagOf, encKey, kvKey]

-- The families differ in their first letter, but for the two records of a client.
def letter : Slot → Char
  | .secret _ | .acl _ => 'c'
  | .adminAcl _ => 'a'
  | .kv _ => 'k'
  | .queue _ => 'q'
  | .deviceToApp _ => 'd'
  | .activityLog => 's'

theorem key_head (slot : Slot) : slot.key.head? = some slot.letter := by
  cases slot <;> rfl

theorem clientSecretKey_ne_clientAclKey (a b : Text) : clientSecretKey a ≠ clientAclKey b := by
  intro h
  have hsecret : ":secret".toList = ":secre".toList ++ ['t'] := by decide
  have hacl : ":acl".toList = ":ac".toList ++ ['l'] := by decide
  unfold clientSecretKey clientAclKey at h
  rw [hsecret, hacl, ← List.append_assoc, ← List.append_assoc] at h
  have hlast := (List.append_inj' h rfl).2
  exact absurd hlast (by decide)

theorem key_injective : Function.Injective Slot.key := by
  intro a b h
  have hletter : a.letter = b.letter := by
    have hhead := congrArg List.head? h
    rw [key_head, key_head] at hhead
    exact Option.some.inj hhead
  cases a with
  | secret id =>
      cases b with
      | secret other =>
          have hid : id = other := List.append_cancel_left (List.append_cancel_right h)
          rw [hid]
      | acl other => exact absurd h (clientSecretKey_ne_clientAclKey id other)
      | _ => simp [letter] at hletter
  | acl id =>
      cases b with
      | secret other => exact absurd h.symm (clientSecretKey_ne_clientAclKey other id)
      | acl other =>
          have hid : id = other := List.append_cancel_left (List.append_cancel_right h)
          rw [hid]
      | _ => simp [letter] at hletter
  | adminAcl user =>
      cases b with
      | adminAcl other => rw [List.append_cancel_left h]
      | _ => simp [letter] at hletter
  | kv key =>
      cases b with
      | kv other => rw [List.append_cancel_left h]
      | _ => simp [letter] at hletter
  | queue topic =>
      cases b with
      | queue other => rw [List.append_cancel_left h]
      | _ => simp [letter] at hletter
  | deviceToApp id =>
      cases b with
      | deviceToApp other => rw [List.append_cancel_left h]
      | _ => simp [letter] at hletter
  | activityLog =>
      cases b with
      | activityLog => rfl
      | _ => simp [letter] at hletter

@[simp] theorem key_inj {a b : Slot} : a.key = b.key ↔ a = b :=
  key_injective.eq_iff

end Slot

section Steps

variable {task : Task} {force : Bool} {s : State}

-- The filter lets the entry through, and its name can be written.
def Task.Accepts (task : Task) (name : Text) : Prop :=
  task.refused = .ok false ∧ task.name = .ok name

def Task.Skips (task : Task) (force : Bool) (name : Text) (store : Store) : Prop :=
  task.present name store = true ∧ force = false

instance (name : Text) (store : Store) : Decidable (task.Skips force name store) :=
  inferInstanceAs (Decidable (_ ∧ _))

theorem Task.run_rejected (h : task.refused = .ok true) : task.run force s = (.ok (),
    { s with result := { s.result with
      rejectedOutsideAppFilter := s.result.rejectedOutsideAppFilter ++ [task.label] } }) := by
  unfold Task.run
  rw [h]

theorem Task.run_stopped {exn : Exn} (h : task.refused = .error exn ∨
    task.refused = .ok false ∧ task.name = .error exn) : task.run force s = (.error exn, s) := by
  unfold Task.run
  rcases h with h | ⟨h, hname⟩
  · rw [h]
  · rw [h, hname]

theorem Task.run_skipped {name : Text} (h : task.Accepts name)
    (hskips : task.Skips force name s.store) :
    task.run force s = (.ok (), { s with result := task.note .skipped s.result }) := by
  unfold Task.run
  rw [h.1, h.2]
  simp [hskips.1, hskips.2]

theorem Task.run_written {name : Text} (h : task.Accepts name)
    (hskips : ¬ task.Skips force name s.store) :
    (task.run force s).1 = (task.write name (task.present name s.store) s.store).1 ∧
    (task.run force s).2.store = (task.write name (task.present name s.store) s.store).2 ∧
    ((task.write name (task.present name s.store) s.store).1 = .ok () →
      (task.run force s).2.result = task.note
        (if task.present name s.store then .overwritten else .restored) s.result) := by
  have hnot : ¬ (task.present name s.store = true ∧ ¬ force = true) := by
    simpa [Task.Skips] using hskips
  unfold Task.run
  rw [h.1, h.2]
  dsimp only
  rw [if_neg hnot]
  cases hwrite : task.write name (task.present name s.store) s.store with
  | mk result store =>
      cases result with
      | ok value => exact ⟨rfl, rfl, fun _ => rfl⟩
      | error exn => exact ⟨rfl, rfl, fun hok => nomatch hok⟩

-- Everything a step can do.
theorem Task.run_cases (task : Task) :
    task.refused = .ok true ∨
    (∃ exn, task.refused = .error exn ∨ task.refused = .ok false ∧ task.name = .error exn) ∨
    ∃ name, task.Accepts name := by
  cases hrefused : task.refused with
  | error exn => exact .inr (.inl ⟨exn, .inl rfl⟩)
  | ok refused =>
      cases refused with
      | true => exact .inl rfl
      | false =>
          cases hname : task.name with
          | error exn => exact .inr (.inl ⟨exn, .inr ⟨rfl, rfl⟩⟩)
          | ok name => exact .inr (.inr ⟨name, hrefused, hname⟩)

-- A key that the write leaves alone is left alone.
theorem Task.peek_run {key : Text}
    (h : ∀ name, task.Accepts name → ∀ existed store,
      (task.write name existed store).2.peek key = store.peek key) :
    (task.run force s).2.store.peek key = s.store.peek key := by
  rcases task.run_cases with hrefused | ⟨exn, hstopped⟩ | ⟨name, haccepts⟩
  · rw [Task.run_rejected hrefused]
  · rw [Task.run_stopped hstopped]
  · by_cases hskips : task.Skips force name s.store
    · rw [Task.run_skipped haccepts hskips]
    · rw [(Task.run_written haccepts hskips).2.1, h name haccepts]

end Steps

section Frame

variable (cfg : Restoring)

def Item.slots : Item → List Slot
  | .client (.text id) _ => [.secret id, .acl id]
  | .adminAcl (.text user) _ => [.adminAcl user]
  | .kv (.text key) _ => [.kv key, .flag key]
  | .queue (.text topic) _ => [.queue topic]
  | .deviceToApp (.text id) _ => [.deviceToApp id]
  | .activityLog _ => [.activityLog]
  | _ => []

theorem peek_setStr {key other : Text} (h : other ≠ key) (value : Except Exn Bytes) (s : Store) :
    (setStr key value s).2.peek other = s.peek other := by
  unfold setStr
  cases value with
  | ok bytes => exact s.peek_set_of_ne h bytes
  | error exn => rfl

theorem peek_andThen {key : Text} {first : Except Exn Unit × Store} {s : Store}
    {next : Store → Except Exn Unit × Store} (hfirst : first.2.peek key = s.peek key)
    (hnext : ∀ s, (next s).2.peek key = s.peek key) : (andThen first next).2.peek key = s.peek key := by
  obtain ⟨result, s'⟩ := first
  cases result with
  | ok value => exact (hnext s').trans hfirst
  | error exn => exact hfirst

theorem peek_setRecord {key other : Text} (hvalue : other ≠ kvKey key) (hflag : other ≠ encKey key)
    (record : KvRecord) (s : Store) : (setRecord key record s).peek other = s.peek other := by
  unfold setRecord
  dsimp only
  split_ifs
  · rw [Store.peek_set_of_ne _ hflag, Store.peek_set_of_ne _ hvalue]
  · rw [Store.peek_delete_of_not_mem _ (by simpa using hflag), Store.peek_set_of_ne _ hvalue]

theorem peek_xadd {key other : Text} (h : other ≠ key) (entry : StreamEntry) (s : Store) :
    (xadd cfg key entry s).2.peek other = s.peek other := by
  unfold xadd
  cases place cfg (s.stream key) entry with
  | ok stream => exact s.peek_setStream_of_ne h stream
  | error exn => rfl

theorem peek_refill {key other : Text} (h : other ≠ key) (existed : Bool)
    (entries : List StreamEntry) (s : Store) :
    (refill cfg key existed entries s).2.peek other = s.peek other := by
  have hbatch (s : Store) : (batch (xadd cfg key) entries s).2.peek other = s.peek other :=
    batch_keeps (fun a b : Store => b.peek other = a.peek other) (fun _ => rfl)
      (fun a b c (hab : b.peek other = a.peek other) (hbc : c.peek other = b.peek other) =>
        hbc.trans hab) (fun entry _ s => peek_xadd cfg h entry s) s
  unfold refill
  rw [hbatch]
  cases existed with
  | false => rfl
  | true => exact s.peek_delete_of_not_mem (by simpa using h)

theorem Item.peek_write (item : Item) {key : Text} (h : ∀ slot ∈ item.slots, slot.key ≠ key)
    (name : Text) (haccepts : (item.task cfg).Accepts name) (existed : Bool) (s : Store) :
    ((item.task cfg).write name existed s).2.peek key = s.peek key := by
  have hname := haccepts.2
  cases item with
  | client cid record =>
      obtain rfl := Str.encode_ok.mp hname
      have hsecret : key ≠ clientSecretKey name := (h (.secret name) (by simp [slots])).symm
      have hacl : key ≠ clientAclKey name := (h (.acl name) (by simp [slots])).symm
      exact peek_andThen (peek_setStr hsecret _ s) (peek_setStr hacl _)
  | adminAcl user acl =>
      obtain rfl := Str.encode_ok.mp hname
      exact peek_setStr (h (.adminAcl name) (by simp [slots])).symm _ s
  | kv k record =>
      obtain rfl := Str.encode_ok.mp hname
      have hvalue : key ≠ kvKey name := (h (.kv name) (by simp [slots])).symm
      have hflag : key ≠ encKey name := by
        rw [← Slot.key_flag]
        exact (h (.flag name) (by simp [slots])).symm
      exact peek_setRecord hvalue hflag record s
  | queue topic entries =>
      obtain rfl := Str.encode_ok.mp hname
      exact peek_refill cfg (h (.queue name) (by simp [slots])).symm existed entries s
  | deviceToApp cid app =>
      obtain rfl := Str.encode_ok.mp hname
      exact peek_setStr (h (.deviceToApp name) (by simp [slots])).symm _ s
  | activityLog entries =>
      exact peek_refill cfg (h .activityLog (by simp [slots])).symm existed entries s

end Frame

section Apart

-- Which entry of which part.
inductive Label
  | client (cid : Str)
  | adminAcl (user : Str)
  | kv (key : Str)
  | queue (topic : Str)
  | deviceToApp (cid : Str)
  | activityLog
deriving DecidableEq

def Item.label : Item → Label
  | .client cid _ => .client cid
  | .adminAcl user _ => .adminAcl user
  | .kv key _ => .kv key
  | .queue topic _ => .queue topic
  | .deviceToApp cid _ => .deviceToApp cid
  | .activityLog _ => .activityLog

theorem nodup_part {α : Type} {f : Str × α → Item} {g : Str → Label} (d : Dict Str α)
    (hlabel : ∀ entry, (f entry).label = g entry.1) (hg : Function.Injective g) :
    ((d.entries.map f).map Item.label).Nodup := by
  have hmap : (d.entries.map f).map Item.label = (d.entries.map Prod.fst).map g := by
    simp only [List.map_map]
    exact List.map_congr_left fun entry _ => hlabel entry
  rw [hmap]
  exact d.nodup.map hg

theorem nodup_labels (env : BackupEnvelope) : (env.items.map Item.label).Nodup := by
  have hlog : (((env.activityLog.map Item.activityLog).toList).map Item.label).Nodup := by
    cases env.activityLog with
    | none => exact List.nodup_nil
    | some entries => exact List.nodup_singleton _
  unfold BackupEnvelope.items
  simp only [List.map_append, List.nodup_append]
  refine ⟨⟨⟨⟨⟨nodup_part (g := .client) _ (fun _ => rfl) (fun _ _ h => Label.client.inj h),
    nodup_part (g := .adminAcl) _ (fun _ => rfl) (fun _ _ h => Label.adminAcl.inj h), ?_⟩,
    nodup_part (g := .kv) _ (fun _ => rfl) (fun _ _ h => Label.kv.inj h), ?_⟩,
    nodup_part (g := .queue) _ (fun _ => rfl) (fun _ _ h => Label.queue.inj h), ?_⟩,
    nodup_part (g := .deviceToApp) _ (fun _ => rfl) (fun _ _ h => Label.deviceToApp.inj h), ?_⟩,
    hlog, ?_⟩
  all_goals
    rintro a ha b hb rfl
    cases a <;> simp [Item.label] at ha hb

def Slot.IsKv (slot : Slot) : Prop := ∃ key, slot = .kv key

def Slot.owner : Slot → Label
  | .secret id | .acl id => .client (.text id)
  | .adminAcl user => .adminAcl (.text user)
  | .kv key => .kv (.text key)
  | .queue topic => .queue (.text topic)
  | .deviceToApp id => .deviceToApp (.text id)
  | .activityLog => .activityLog

-- Only values and flags can be in each other's way.
theorem label_of_mem_slots {item : Item} {slot : Slot} (h : slot ∈ item.slots)
    (hkv : ¬ slot.IsKv) : item.label = slot.owner := by
  cases item with
  | kv key record =>
      cases key with
      | surrogates units => exact absurd h List.not_mem_nil
      | text key =>
          rcases List.mem_pair.mp h with rfl | rfl
          · exact absurd ⟨key, rfl⟩ hkv
          · exact absurd ⟨flagOf key, rfl⟩ hkv
  | client cid record =>
      cases cid with
      | surrogates units => exact absurd h List.not_mem_nil
      | text id => rcases List.mem_pair.mp h with rfl | rfl <;> rfl
  | activityLog entries =>
      obtain rfl := List.mem_singleton.mp h
      rfl
  | adminAcl name _ | queue name _ | deviceToApp name _ =>
      cases name with
      | surrogates units => exact absurd h List.not_mem_nil
      | text name =>
          obtain rfl := List.mem_singleton.mp h
          rfl

theorem label_ne_of_split {env : BackupEnvelope} {before after : List Item} {item : Item}
    (h : env.items = before ++ item :: after) :
    (∀ b ∈ before, b.label ≠ item.label) ∧ ∀ b ∈ after, b.label ≠ item.label := by
  have hnodup := nodup_labels env
  rw [h, List.map_append, List.map_cons, List.nodup_append] at hnodup
  obtain ⟨-, hrest, hbefore⟩ := hnodup
  rw [List.nodup_cons] at hrest
  constructor
  · intro b hb
    exact hbefore b.label (List.mem_map_of_mem hb) item.label (by simp)
  · intro b hb heq
    exact hrest.1 (by rw [← heq]; exact List.mem_map_of_mem hb)

end Apart

section Batches

variable (cfg : Restoring)

theorem peek_restoreItem (item : Item) {key : Text} (h : ∀ slot ∈ item.slots, slot.key ≠ key)
    (s : State) : (restoreItem cfg item s).2.store.peek key = s.store.peek key :=
  Task.peek_run (item.peek_write cfg h)

theorem peek_batch {items : List Item} {key : Text}
    (h : ∀ item ∈ items, ∀ slot ∈ item.slots, slot.key ≠ key) (s : State) :
    (batch (restoreItem cfg) items s).2.store.peek key = s.store.peek key :=
  batch_keeps (fun a b : State => b.store.peek key = a.store.peek key) (fun _ => rfl)
    (fun a b c (hab : b.store.peek key = a.store.peek key)
      (hbc : c.store.peek key = b.store.peek key) => hbc.trans hab)
    (fun item hitem s => peek_restoreItem cfg item (h item hitem) s) s

variable {cfg} {env : BackupEnvelope} {store : Store} {before : List Item} {item : Item}
  {slot : Slot}

def State.start (store : Store) : State := ⟨store, .new⟩

theorem slot_key_ne {items : List Item} (hkv : ¬ slot.IsKv) (hslot : slot ∈ item.slots)
    (h : ∀ b ∈ items, b.label ≠ item.label) :
    ∀ b ∈ items, ∀ other ∈ b.slots, other.key ≠ slot.key := by
  intro b hb other hother hkey
  obtain rfl := Slot.key_injective hkey
  exact h b hb ((label_of_mem_slots hother hkv).trans (label_of_mem_slots hslot hkv).symm)

-- Until an entry is reached its records are as they were.
theorem peek_before (hreaches : Reaches (restoreItem cfg) env.items before item (.start store))
    (hslot : slot ∈ item.slots) (hkv : ¬ slot.IsKv) :
    (batch (restoreItem cfg) before (.start store)).2.store.peek slot.key = store.peek slot.key := by
  obtain ⟨⟨after, hsplit⟩, -⟩ := hreaches
  exact peek_batch cfg (slot_key_ne hkv hslot (label_ne_of_split hsplit).1) _

-- And they stay as the entry leaves them.
theorem peek_after (hreaches : Reaches (restoreItem cfg) env.items before item (.start store))
    (hslot : slot ∈ item.slots) (hkv : ¬ slot.IsKv) :
    (applyEnvelope cfg env store).2.peek slot.key =
      (restoreItem cfg item (batch (restoreItem cfg) before (.start store)).2).2.store.peek
        slot.key := by
  obtain ⟨⟨after, hsplit⟩, hbefore⟩ := hreaches
  change (batch (restoreItem cfg) env.items (.start store)).2.store.peek slot.key = _
  rw [hsplit, batch_append_ok hbefore]
  cases hstep : (restoreItem cfg item (batch (restoreItem cfg) before (.start store)).2).1 with
  | ok value =>
      rw [batch_cons_ok hstep]
      exact peek_batch cfg (slot_key_ne hkv hslot (label_ne_of_split hsplit).2) _
  | error exn => rw [batch_cons_error hstep]

-- A record that is not as it was belongs to an entry that the run gets to.
theorem exists_reaches_of_changed (hkv : ¬ slot.IsKv)
    (hchanged : (applyEnvelope cfg env store).2.peek slot.key ≠ store.peek slot.key) :
    ∃ before item, Reaches (restoreItem cfg) env.items before item (.start store) ∧
      slot ∈ item.slots := by
  obtain ⟨item, hmem, hslot⟩ : ∃ item ∈ env.items, slot ∈ item.slots := by
    by_contra hnone
    refine hchanged (peek_batch cfg ?_ (.start store))
    intro item hmem other hother hkey
    obtain rfl := Slot.key_injective hkey
    exact hnone ⟨item, hmem, hother⟩
  obtain ⟨before, after, hsplit⟩ := List.append_of_mem hmem
  cases hbefore : (batch (restoreItem cfg) before (.start store)).1 with
  | ok value => exact ⟨before, item, ⟨⟨after, hsplit⟩, hbefore⟩, hslot⟩
  | error exn =>
      have hstop : (applyEnvelope cfg env store).2 =
          (batch (restoreItem cfg) before (.start store)).2.store := by
        change (batch (restoreItem cfg) env.items (.start store)).2.store = _
        rw [hsplit, batch_append_error hbefore]
      rw [hstop] at hchanged
      exact absurd (peek_batch cfg (slot_key_ne hkv hslot (label_ne_of_split hsplit).1) _) hchanged

end Batches

end Stra2us.Backup
