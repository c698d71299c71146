import Stra2us.Backup.Atomicity

namespace Stra2us.Backup

open Foundation Server

section Clock

variable (cfg : Restoring)

-- The same restore at another time.
def Restoring.at (nowMs : Nat) : Restoring := { cfg with nowMs }

def StreamEntry.Has (entry : StreamEntry) (id : StreamId) : Prop :=
  ∃ text, entry.id = .text text ∧ cfg.parseId text = some (.exact id)

-- Ids in full that go up from zero, and entries that have fields.
structure Ordered (entries : List StreamEntry) : Prop where
  positive : ∀ entry ∈ entries, entry.fields.entries ≠ [] ∧
    ∃ id, entry.Has cfg id ∧ Stream.empty.last < id
  increasing : entries.Pairwise fun a b => ∀ i j, a.Has cfg i → b.Has cfg j → i < j

structure BackupEnvelope.Ordered (env : BackupEnvelope) : Prop where
  queues : ∀ entry ∈ env.queues.entries, Backup.Ordered cfg entry.2
  activityLog : ∀ entries, env.activityLog = some entries → Backup.Ordered cfg entries

-- The same envelope twice, the second time perhaps later.
def Idempotent (env : BackupEnvelope) (store : Store) : Prop :=
  ∀ later key, (applyEnvelope (cfg.at later) env (applyEnvelope cfg env store).2).2.peek key =
    (applyEnvelope cfg env store).2.peek key

variable {cfg} {env : BackupEnvelope} {entries : List StreamEntry} {later : Nat}

theorem place_at {entry : StreamEntry} {id : StreamId} (h : entry.Has cfg id)
    (stream : Stream) : place (cfg.at later) stream entry = place cfg stream entry := by
  obtain ⟨text, hid, hparse⟩ := h
  have hlater : (cfg.at later).parseId text = some (.exact id) := hparse
  unfold place
  rw [hid, Str.encode_text]
  simp only [bind, Except.bind, hlater, hparse]
  rfl

theorem batch_congr {ι σ ε : Type} {f g : ι → σ → Except ε Unit × σ} {items : List ι}
    (h : ∀ item ∈ items, ∀ s, f item s = g item s) (s : σ) : batch f items s = batch g items s := by
  induction items generalizing s with
  | nil => rfl
  | cons item rest ih =>
      have hrest : ∀ other ∈ rest, ∀ s, f other s = g other s := fun other hother =>
        h other (List.mem_cons_of_mem item hother)
      rw [batch, batch, h item List.mem_cons_self]
      split
      · exact ih hrest _
      · rfl

theorem refill_at (h : Ordered cfg entries) (key : Text) (existed : Bool) (s : Store) :
    refill (cfg.at later) key existed entries s = refill cfg key existed entries s := by
  refine batch_congr (fun entry hentry s => ?_) _
  obtain ⟨-, id, hid, -⟩ := h.positive entry hentry
  unfold xadd
  rw [place_at hid]

-- The clock plays no part where the ids come with the entries.
theorem task_at (h : env.Ordered cfg) {item : Item} (hitem : item ∈ env.items) :
    item.task (cfg.at later) = item.task cfg := by
  cases item with
  | queue topic entries =>
      have hentry : (topic, entries) ∈ env.queues.entries := by
        unfold BackupEnvelope.items at hitem
        simpa using hitem
      unfold Item.task restoreQueue
      simp only [refill_at (h.queues _ hentry)]
      rfl
  | activityLog entries =>
      have hlog : env.activityLog = some entries := by
        unfold BackupEnvelope.items at hitem
        simpa using hitem
      unfold Item.task restoreActivityLog
      simp only [refill_at (h.activityLog _ hlog)]
  | _ => rfl

theorem apply_at (h : env.Ordered cfg) (store : Store) :
    applyEnvelope (cfg.at later) env store = applyEnvelope cfg env store := by
  unfold applyEnvelope restoreItems
  have hbatch : batch (restoreItem (cfg.at later)) env.items ⟨store, .new⟩ =
      batch (restoreItem cfg) env.items ⟨store, .new⟩ := by
    refine batch_congr (fun item hitem s => ?_) _
    unfold restoreItem
    rw [task_at h hitem]
    rfl
  rw [hbatch]

theorem idempotent_iff_unchanged (h : env.Ordered cfg) (store : Store) :
    Idempotent cfg env store ↔ Unchanged cfg env (applyEnvelope cfg env store).2 := by
  unfold Idempotent Unchanged
  simp only [apply_at h]
  exact forall_const Nat

end Clock

section Written

variable {cfg : Restoring} {item : Item} {s : State} {name : Text}

@[simp] theorem stream?_setStr (key other : Text) (value : Except Exn Bytes) (store : Store) :
    (setStr key value store).2.stream? other = store.stream? other := by
  cases value <;> rfl

theorem leaves_written (hkv : ¬ item.IsKv) (haccepts : (item.task cfg).Accepts name)
    (existed : Bool) (store : Store) :
    item.leaves cfg ((item.task cfg).write name existed store).2 = item.leaves cfg store := by
  cases item with
  | client cid record =>
      have hstream (key : Text) :
          (andThen (setStr (clientSecretKey name) (record.secret.encode.map utf8) store)
            (setStr (clientAclKey name) (cfg.dumps record.acl))).2.stream? key =
              store.stream? key := by
        cases record.secret.encode.map utf8 with
        | ok bytes => exact stream?_setStr _ _ _ _
        | error exn => rfl
      change Item.leaves cfg _ (Item.client cid record) = _
      cases cid with
      | surrogates units => rfl
      | text id =>
          unfold Item.leaves
          simp only [Item.task, restoreClient, hstream]
  | adminAcl user acl =>
      cases user with
      | surrogates units => rfl
      | text user =>
          unfold Item.leaves
          simp only [Item.task, restoreAdminAcl, stream?_setStr]
  | deviceToApp cid app =>
      cases cid with
      | surrogates units => rfl
      | text cid =>
          cases app with
          | surrogates units => rfl
          | text app => simp only [Item.leaves, Item.task, restoreDeviceToApp, stream?_setStr]
  | queue topic entries => cases topic <;> rfl
  | activityLog entries => rfl
  | kv key record => exact absurd trivial hkv

-- What was written once is there already.
theorem idle_restored (hkv : ¬ item.IsKv) : item.Idle cfg (restoreItem cfg item s).2.store := by
  intro name haccepts hskips p hp
  unfold restoreItem at hskips hp ⊢
  by_cases hskipped : (item.task cfg).Skips cfg.forceOverwrite name s.store
  · rw [Task.run_skipped haccepts hskipped] at hskips
    exact absurd hskipped hskips
  · rw [(Task.run_written haccepts hskipped).2.1] at hp ⊢
    rw [leaves_written hkv haccepts] at hp
    exact Item.peek_leaves haccepts hp

theorem fits_restored (h : item.Fits cfg s.store) :
    item.Fits cfg (restoreItem cfg item s).2.store := by
  rcases h with hrefused | ⟨name, haccepts, hskips | hstorable⟩
  · exact .inl hrefused
  · refine .inr ⟨name, haccepts, .inl ?_⟩
    unfold restoreItem
    rw [Task.run_skipped haccepts hskips]
    exact hskips
  · exact .inr ⟨name, haccepts, .inr hstorable⟩

end Written

section Twice

variable {cfg : Restoring} {env : BackupEnvelope} {store : Store} {before after : List Item}
  {item : Item}

theorem idle_again (hreaches : Reaches (restoreItem cfg) env.items before item (.start store))
    (hkv : ¬ item.IsKv) : item.Idle cfg (applyEnvelope cfg env store).2 := by
  have hidle := @idle_restored cfg item (batch (restoreItem cfg) before (.start store)).2 hkv
  refine (Item.idle_congr fun slot hslot => ?_).mpr hidle
  exact peek_after hreaches hslot (not_isKv_of_mem_slots hkv slot hslot)

theorem fits_of_isKv {other : Store} (hkv : item.IsKv) :
    item.Fits cfg store ↔ item.Fits cfg other := by
  cases item with
  | kv key record =>
      refine or_congr_right (exists_congr fun name => and_congr_right fun _ => ?_)
      exact iff_of_true (.inr trivial) (.inr trivial)
  | _ => exact absurd hkv id

theorem fits_again (hreaches : Reaches (restoreItem cfg) env.items before item (.start store))
    (h : item.Fits cfg store) : item.Fits cfg (applyEnvelope cfg env store).2 := by
  by_cases hkv : item.IsKv
  · exact (fits_of_isKv hkv).mp h
  · have hfits := fits_restored ((fits_of_reaches hreaches).mpr h)
    refine (Item.fits_congr fun slot hslot => ?_).mpr hfits
    exact peek_after hreaches hslot (not_isKv_of_mem_slots hkv slot hslot)

-- Either all of the entries fit or one is the first that does not.
theorem fits_or_bad (items : List Item) : (∀ item ∈ items, item.Fits cfg store) ∨
    ∃ before bad after, items = before ++ bad :: after ∧ (∀ b ∈ before, b.Fits cfg store) ∧
      ¬ bad.Fits cfg store := by
  induction items with
  | nil => exact .inl fun item h => absurd h List.not_mem_nil
  | cons item rest ih =>
      by_cases hfits : item.Fits cfg store
      · rcases ih with hall | ⟨before, bad, after, rfl, hbefore, hbad⟩
        · exact .inl (List.forall_mem_cons.mpr ⟨hfits, hall⟩)
        · exact .inr ⟨item :: before, bad, after, rfl, List.forall_mem_cons.mpr ⟨hfits, hbefore⟩,
            hbad⟩
      · exact .inr ⟨[], item, rest, rfl, fun b h => absurd h List.not_mem_nil, hfits⟩

theorem reaches_of_fits (hfits : ∀ b ∈ env.items, b.Fits cfg store)
    (hsplit : env.items = before ++ item :: after) :
    Reaches (restoreItem cfg) env.items before item (.start store) := by
  refine reaches_iff_fits.mpr ⟨⟨after, hsplit⟩, fun b hb => hfits b ?_⟩
  rw [hsplit]
  exact List.mem_append_left _ hb

theorem unchanged_of_fits (hfits : ∀ b ∈ env.items, b.Fits cfg store) :
    Unchanged cfg env store ↔
      (∀ item ∈ env.items, item.Idle cfg store) ∧ KvUntouched cfg store env.items := by
  have hsplit : env.items = env.items ++ [] := (List.append_nil _).symm
  have hok := (batch_ok_iff_fits hsplit).mpr hfits
  rw [← kvUntouched_iff hok]
  constructor
  · intro h
    refine ⟨fun item hitem => ?_, fun key => h (kvKey key)⟩
    obtain ⟨first, rest, hitems⟩ := List.append_of_mem hitem
    by_cases hkv : item.IsKv
    · exact idle_of_isKv hkv
    · exact (idle_of_reaches (reaches_of_fits hfits hitems) hkv).mp fun slot _ => h slot.key
  · rintro ⟨hidle, hvalues⟩ key
    by_cases hslot : ∃ slot : Slot, slot.key = key
    · obtain ⟨slot, rfl⟩ := hslot
      by_cases hkv : slot.IsKv
      · obtain ⟨name, rfl⟩ := hkv
        exact hvalues name
      · by_contra hchanged
        obtain ⟨first, item, hreaches, hslot⟩ := exists_reaches_of_changed hkv hchanged
        obtain ⟨⟨rest, hitems⟩, -⟩ := hreaches
        have hmem : item ∈ env.items := by
          rw [hitems]
          exact List.mem_append_right _ List.mem_cons_self
        exact hchanged ((idle_of_reaches (reaches_of_fits hfits hitems)
          (not_isKv_of_mem_slot hslot hkv)).mpr (hidle item hmem) slot hslot)
    · refine peek_batch cfg ?_ (.start store)
      intro item hmem other hother hkey
      exact hslot ⟨other, hkey⟩

-- Where nothing is overwritten, a run changes nothing when what it gets to is there already.
theorem unchanged_iff_reached (hforce : cfg.forceOverwrite = false) :
    Unchanged cfg env store ↔ ∀ before item after, env.items = before ++ item :: after →
      (∀ b ∈ before, b.Fits cfg store) →
        item.Idle cfg store ∧ ∀ name, item.Brings cfg name → store.has (kvKey name) = true := by
  have huntouched (items : List Item) : KvUntouched cfg store items ↔
      ∀ item ∈ items, ∀ name, item.Brings cfg name → store.has (kvKey name) = true := by
    unfold KvUntouched
    rw [hforce]
    simp
  rcases @fits_or_bad cfg store env.items with hfits | ⟨before, bad, after, hsplit, hbefore, hbad⟩
  · rw [unchanged_of_fits hfits, huntouched]
    constructor
    · rintro ⟨hidle, hthere⟩ before item after hsplit -
      have hmem : item ∈ env.items := by
        rw [hsplit]
        exact List.mem_append_right _ List.mem_cons_self
      exact ⟨hidle item hmem, hthere item hmem⟩
    · intro h
      have hitem : ∀ item ∈ env.items, item.Idle cfg store ∧
          ∀ name, item.Brings cfg name → store.has (kvKey name) = true := by
        intro item hmem
        obtain ⟨first, rest, hsplit⟩ := List.append_of_mem hmem
        exact h first item rest hsplit (reaches_iff_fits.mp (reaches_of_fits hfits hsplit)).2
      exact ⟨fun item hmem => (hitem item hmem).1, fun item hmem => (hitem item hmem).2⟩
  · rw [unchanged_iff hsplit hbefore hbad, huntouched]
    constructor
    · rintro ⟨hidle, hthere⟩ first item rest hsplit' hfirst
      have hreaches := reaches_iff_fits.mpr ⟨⟨rest, hsplit'⟩, hfirst⟩
      have hmem := mem_of_reaches hsplit hbad hreaches
      refine ⟨hidle item hmem, fun name hbrings => ?_⟩
      rcases List.mem_append.mp hmem with hmem | hmem
      · exact hthere item hmem name hbrings
      · obtain rfl := List.mem_singleton.mp hmem
        obtain ⟨record, rfl, haccepts⟩ := hbrings
        exact absurd (.inr ⟨name, haccepts, .inr trivial⟩) hbad
    · intro h
      have hitem : ∀ item ∈ before, item.Idle cfg store ∧
          ∀ name, item.Brings cfg name → store.has (kvKey name) = true := by
        intro item hmem
        obtain ⟨first, rest, rfl⟩ := List.append_of_mem hmem
        refine h first item (rest ++ bad :: after) (by rw [hsplit]; simp) fun b hb => ?_
        exact hbefore b (List.mem_append_left _ hb)
      refine ⟨fun item hmem => ?_, fun item hmem => (hitem item hmem).2⟩
      rcases List.mem_append.mp hmem with hmem | hmem
      · exact (hitem item hmem).1
      · obtain rfl := List.mem_singleton.mp hmem
        exact (h before item after hsplit hbefore).1

end Twice

section Forced

variable {cfg : Restoring} {env : BackupEnvelope} {store : Store} {items : List Item} {item : Item}

theorem foldl_put_again (old : Option Bytes × Option Stream) (values : List (Option Bytes)) :
    values.foldl put (values.foldl put old) = values.foldl put old := by
  refine (foldl_put_same_iff _ values).mpr fun last hlast => ?_
  rw [foldl_put_eq, hlast]
  exact ⟨rfl, fun hnone => if_pos hnone⟩

theorem fits_forced (hforce : cfg.forceOverwrite = true) (other : Store) :
    item.Fits cfg store ↔ item.Fits cfg other := by
  have hskips (name : Text) (s : Store) : ¬ (item.task cfg).Skips cfg.forceOverwrite name s := by
    rintro ⟨-, h⟩
    rw [hforce] at h
    cases h
  refine or_congr_right (exists_congr fun name => and_congr_right fun _ => ?_)
  exact or_congr (iff_of_false (hskips name store) (hskips name other)) Iff.rfl

theorem kvUntouched_forced (hforce : cfg.forceOverwrite = true)
    (hfits : ∀ b ∈ items, b.Fits cfg store) {after : List Item} (hsplit : env.items = items ++ after)
    (hvalues : ∀ key, (applyEnvelope cfg env store).2.peek (kvKey key) =
      (batch (restoreItem cfg) items (.start store)).2.store.peek (kvKey key)) :
    KvUntouched cfg (applyEnvelope cfg env store).2 items := by
  have hok := (batch_ok_iff_fits hsplit).mpr hfits
  have hagain := (batch_ok_iff_fits hsplit).mpr fun b hb =>
    (fits_forced hforce (applyEnvelope cfg env store).2).mp (hfits b hb)
  refine (kvUntouched_iff hagain).mp fun key => ?_
  rw [peek_kv_batch hforce key hagain]
  change (items.flatMap (Item.puts cfg key)).foldl put
    ((applyEnvelope cfg env store).2.peek (kvKey key)) = _
  rw [hvalues, peek_kv_batch hforce key hok, foldl_put_again]

theorem idle_again_of_mem (hfits : ∀ b ∈ items, b.Fits cfg store) {after : List Item}
    (hsplit : env.items = items ++ after) (hitem : item ∈ items) :
    item.Idle cfg (applyEnvelope cfg env store).2 := by
  by_cases hkv : item.IsKv
  · exact idle_of_isKv hkv
  · obtain ⟨first, rest, rfl⟩ := List.append_of_mem hitem
    have hreaches : Reaches (restoreItem cfg) env.items first item (.start store) := by
      refine reaches_iff_fits.mpr ⟨⟨rest ++ after, by rw [hsplit]; simp⟩, fun b hb => ?_⟩
      exact hfits b (List.mem_append_left _ hb)
    exact idle_again hreaches hkv

theorem unchanged_forced (hforce : cfg.forceOverwrite = true) :
    Unchanged cfg env (applyEnvelope cfg env store).2 := by
  rcases @fits_or_bad cfg store env.items with hfits | ⟨before, bad, after, hsplit, hbefore, hbad⟩
  · have hsplit : env.items = env.items ++ [] := (List.append_nil _).symm
    have hagain : ∀ b ∈ env.items, b.Fits cfg (applyEnvelope cfg env store).2 := fun b hb =>
      (fits_forced hforce _).mp (hfits b hb)
    refine (unchanged_of_fits hagain).mpr ⟨fun item hitem => ?_, ?_⟩
    · exact idle_again_of_mem hfits hsplit hitem
    · exact kvUntouched_forced hforce hfits hsplit fun key => rfl
  · have hagain : ∀ b ∈ before, b.Fits cfg (applyEnvelope cfg env store).2 := fun b hb =>
      (fits_forced hforce _).mp (hbefore b hb)
    have hbad' : ¬ bad.Fits cfg (applyEnvelope cfg env store).2 := fun h =>
      hbad ((fits_forced hforce store).mp h)
    refine (unchanged_iff hsplit hagain hbad').mpr ⟨fun item hitem => ?_, ?_⟩
    · rcases List.mem_append.mp hitem with hitem | hitem
      · exact idle_again_of_mem hbefore hsplit hitem
      · obtain rfl := List.mem_singleton.mp hitem
        by_cases hkv : item.IsKv
        · exact idle_of_isKv hkv
        · exact idle_again (reaches_iff_fits.mpr ⟨⟨after, hsplit⟩, hbefore⟩) hkv
    · exact kvUntouched_forced hforce hbefore hsplit (peek_kv_of_bad hsplit hbefore hbad)

end Forced

end Stra2us.Backup
