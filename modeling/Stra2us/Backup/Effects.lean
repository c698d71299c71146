import Stra2us.Backup.Records

namespace Stra2us.Backup

open Foundation Server

section Streams

variable (cfg : Restoring)

-- Every entry can be added after the ones before it.
def Fills : Stream → List StreamEntry → Prop
  | _, [] => True
  | stream, entry :: rest => ∃ grown, place cfg stream entry = .ok grown ∧ Fills grown rest

-- The stream the entries make, up to the first that cannot be added.
def filled : Option Stream → List StreamEntry → Option Stream
  | stream?, [] => stream?
  | stream?, entry :: rest =>
      match place cfg (stream?.getD .empty) entry with
      | .ok grown => filled (some grown) rest
      | .error _ => stream?

theorem batch_xadd (key : Text) (entries : List StreamEntry) (s : Store) :
    ((batch (xadd cfg key) entries s).1 = .ok () ↔ Fills cfg (s.stream key) entries) ∧
      (batch (xadd cfg key) entries s).2.peek key =
        (s.get key, filled cfg (s.stream? key) entries) := by
  induction entries generalizing s with
  | nil => exact ⟨by simp [Fills], rfl⟩
  | cons entry rest ih =>
      cases hplace : place cfg (s.stream key) entry with
      | ok grown =>
          have hstep : xadd cfg key entry s = (.ok (), s.setStream key grown) := by
            unfold xadd
            rw [hplace]
          have hok : (xadd cfg key entry s).1 = .ok () := by rw [hstep]
          obtain ⟨hfirst, hsecond⟩ := ih (s.setStream key grown)
          rw [batch_cons_ok hok, hstep]
          constructor
          · rw [hfirst, Store.stream_setStream_self]
            constructor
            · intro hfills
              exact ⟨grown, hplace, hfills⟩
            · rintro ⟨other, hother, hfills⟩
              rw [hplace] at hother
              rwa [Except.ok.inj hother]
          · have hgetD : (s.stream? key).getD .empty = s.stream key := rfl
            rw [hsecond, Store.stream?_setStream_self, Store.get_setStream]
            simp only [filled, hgetD, hplace]
      | error exn =>
          have hstep : xadd cfg key entry s = (.error exn, s) := by
            unfold xadd
            rw [hplace]
          have herror : (xadd cfg key entry s).1 = .error exn := by rw [hstep]
          rw [batch_cons_error herror, hstep]
          constructor
          · constructor
            · intro h
              cases h
            · rintro ⟨other, hother, -⟩
              rw [hplace] at hother
              cases hother
          · have hgetD : (s.stream? key).getD .empty = s.stream key := rfl
            simp only [filled, hgetD, hplace]
            rfl

-- A stream is filled from nothing: one that is there is deleted first.
theorem refill_eq (key : Text) (entries : List StreamEntry) (s : Store) :
    ((refill cfg key (s.has key) entries s).1 = .ok () ↔ Fills cfg .empty entries) ∧
      (refill cfg key (s.has key) entries s).2.peek key = (none, filled cfg none entries) := by
  have hstart : ((if s.has key then s.delete [key] else s).get key = none) ∧
      (if s.has key then s.delete [key] else s).stream? key = none := by
    by_cases hhas : s.has key = true
    · rw [if_pos hhas]
      simp [Store.get_delete, Store.stream?_delete]
    · rw [if_neg hhas]
      simpa [Store.has] using hhas
  have hempty : (if s.has key then s.delete [key] else s).stream key = .empty := by
    unfold Store.stream
    rw [hstart.2]
    rfl
  have hbatch := batch_xadd cfg key entries (if s.has key then s.delete [key] else s)
  rw [hempty, hstart.1, hstart.2] at hbatch
  exact hbatch

end Streams

section Writes

variable (cfg : Restoring)

-- What an entry holds can be stored.
def Item.Storable : Item → Prop
  | .client _ record => (∃ secret, record.secret = .text secret) ∧ ∃ raw, cfg.dumps record.acl = .ok raw
  | .adminAcl _ acl => ∃ raw, cfg.dumps acl = .ok raw
  | .kv _ _ => True
  | .queue _ entries => Fills cfg .empty entries
  | .deviceToApp _ app => ∃ text, app = .text text
  | .activityLog entries => Fills cfg .empty entries

-- What a write leaves where: a string, which leaves other kinds of values alone, or a stream.
def Item.leaves (s : Store) : Item → List (Slot × (Option Bytes × Option Stream))
  | .client (.text id) record =>
      match record.secret with
      | .text secret =>
          (.secret id, (some (utf8 secret), s.stream? (clientSecretKey id))) ::
            match cfg.dumps record.acl with
            | .ok raw => [(.acl id, (some raw, s.stream? (clientAclKey id)))]
            | .error _ => []
      | .surrogates _ => []
  | .adminAcl (.text user) acl =>
      match cfg.dumps acl with
      | .ok raw => [(.adminAcl user, (some raw, s.stream? (adminAclKey user)))]
      | .error _ => []
  | .queue (.text topic) entries => [(.queue topic, (none, filled cfg none entries))]
  | .deviceToApp (.text id) (.text app) =>
      [(.deviceToApp id, (some (utf8 app), s.stream? (deviceToAppKey id)))]
  | .activityLog entries => [(.activityLog, (none, filled cfg none entries))]
  | _ => []

-- The entry is not written, or what it leaves is there already.
def Item.Idle (s : Store) (item : Item) : Prop :=
  ∀ name, (item.task cfg).Accepts name → ¬ (item.task cfg).Skips cfg.forceOverwrite name s →
    ∀ p ∈ item.leaves cfg s, s.peek p.1.key = p.2

-- The entry is turned away, skipped, or can be stored.
def Item.Fits (s : Store) (item : Item) : Prop :=
  (item.task cfg).refused = .ok true ∨ ∃ name, (item.task cfg).Accepts name ∧
    ((item.task cfg).Skips cfg.forceOverwrite name s ∨ item.Storable cfg)

variable {cfg} {item : Item} {name : Text} {s : Store}

theorem setStr_ok_iff {key : Text} {value : Except Exn Bytes} :
    (setStr key value s).1 = .ok () ↔ ∃ bytes, value = .ok bytes := by
  cases value with
  | ok bytes => simp [setStr]
  | error exn => simp [setStr]

theorem andThen_setStr_ok_iff {key : Text} {value : Except Exn Bytes}
    {next : Store → Except Exn Unit × Store} :
    (andThen (setStr key value s) next).1 = .ok () ↔
      ∃ bytes, value = .ok bytes ∧ (next (s.set key bytes)).1 = .ok () := by
  cases value with
  | ok bytes => simp [setStr, andThen]
  | error exn => simp [setStr, andThen]

theorem encode_map_ok {str : Str} :
    (∃ bytes, str.encode.map utf8 = .ok bytes) ↔ ∃ text, str = .text text := by
  cases str with
  | text t => simp [Str.encode, Except.map]
  | surrogates units => simp [Str.encode, Except.map]

theorem Item.write_ok_iff (haccepts : (item.task cfg).Accepts name) :
    ((item.task cfg).write name ((item.task cfg).present name s) s).1 = .ok () ↔
      item.Storable cfg := by
  cases item with
  | client cid record =>
      refine andThen_setStr_ok_iff.trans ?_
      simp only [setStr_ok_iff, exists_and_right, encode_map_ok]
      rfl
  | adminAcl user acl => exact setStr_ok_iff
  | kv key record => exact iff_of_true rfl trivial
  | queue topic entries => exact (refill_eq cfg (queueKey name) entries s).1
  | deviceToApp cid app => exact setStr_ok_iff.trans encode_map_ok
  | activityLog entries => exact (refill_eq cfg activityLogKey entries s).1

theorem peek_setStr_self (key : Text) (bytes : Bytes) (s : Store) :
    (setStr key (.ok bytes) s).2.peek key = (some bytes, s.stream? key) :=
  s.peek_set_self key bytes

theorem Item.peek_leaves (haccepts : (item.task cfg).Accepts name)
    {p : Slot × (Option Bytes × Option Stream)} (hp : p ∈ item.leaves cfg s) :
    ((item.task cfg).write name ((item.task cfg).present name s) s).2.peek p.1.key = p.2 := by
  have hname := haccepts.2
  cases item with
  | client cid record =>
      obtain rfl := Str.encode_ok.mp hname
      change (andThen (setStr (clientSecretKey name) (record.secret.encode.map utf8) s)
        (setStr (clientAclKey name) (cfg.dumps record.acl))).2.peek p.1.key = p.2
      unfold leaves at hp
      cases hsecret : record.secret with
      | surrogates units => simp [hsecret] at hp
      | text secret =>
          have hne : clientAclKey name ≠ clientSecretKey name :=
            (Slot.clientSecretKey_ne_clientAclKey name name).symm
          change (setStr (clientAclKey name) (cfg.dumps record.acl)
            (s.set (clientSecretKey name) (utf8 secret))).2.peek p.1.key = p.2
          simp only [hsecret, List.mem_cons] at hp
          rcases hp with rfl | hp
          · exact (peek_setStr hne.symm _ _).trans (s.peek_set_self _ _)
          · cases hdumps : cfg.dumps record.acl with
            | ok raw =>
                rw [hdumps] at hp
                obtain rfl := List.mem_singleton.mp hp
                exact (peek_setStr_self _ raw _).trans rfl
            | error exn =>
                rw [hdumps] at hp
                exact absurd hp List.not_mem_nil
  | adminAcl user acl =>
      obtain rfl := Str.encode_ok.mp hname
      unfold leaves at hp
      change (setStr (adminAclKey name) (cfg.dumps acl) s).2.peek p.1.key = p.2
      cases hdumps : cfg.dumps acl with
      | ok raw =>
          simp only [hdumps, List.mem_singleton] at hp
          subst hp
          exact peek_setStr_self _ raw s
      | error exn => simp [hdumps] at hp
  | kv key record => exact absurd hp List.not_mem_nil
  | queue topic entries =>
      obtain rfl := Str.encode_ok.mp hname
      obtain rfl := List.mem_singleton.mp hp
      exact (refill_eq cfg (queueKey name) entries s).2
  | deviceToApp cid app =>
      obtain rfl := Str.encode_ok.mp hname
      cases app with
      | surrogates units => exact absurd hp List.not_mem_nil
      | text app =>
          obtain rfl := List.mem_singleton.mp hp
          exact peek_setStr_self _ _ s
  | activityLog entries =>
      obtain rfl := List.mem_singleton.mp hp
      exact (refill_eq cfg activityLogKey entries s).2

-- A record that nothing is left at stays as it was.
theorem Item.peek_not_left (haccepts : (item.task cfg).Accepts name) {slot : Slot}
    (hslot : slot ∈ item.slots) (hkv : ¬ slot.IsKv) (hnot : ∀ p ∈ item.leaves cfg s, p.1 ≠ slot) :
    ((item.task cfg).write name ((item.task cfg).present name s) s).2.peek slot.key =
      s.peek slot.key := by
  have hname := haccepts.2
  cases item with
  | client cid record =>
      obtain rfl := Str.encode_ok.mp hname
      change (andThen (setStr (clientSecretKey name) (record.secret.encode.map utf8) s)
        (setStr (clientAclKey name) (cfg.dumps record.acl))).2.peek slot.key = _
      unfold leaves at hnot
      cases hsecret : record.secret with
      | surrogates units => rfl
      | text secret =>
          simp only [hsecret, List.mem_cons, forall_eq_or_imp] at hnot
          rcases List.mem_pair.mp hslot with rfl | rfl
          · exact absurd rfl hnot.1
          · change (setStr (clientAclKey name) (cfg.dumps record.acl)
              (s.set (clientSecretKey name) (utf8 secret))).2.peek _ = _
            cases hdumps : cfg.dumps record.acl with
            | ok raw => exact absurd rfl (hnot.2 _ (by rw [hdumps]; exact List.mem_singleton.mpr rfl))
            | error exn =>
                exact s.peek_set_of_ne (Slot.clientSecretKey_ne_clientAclKey name name).symm _
  | adminAcl user acl =>
      obtain rfl := Str.encode_ok.mp hname
      obtain rfl := List.mem_singleton.mp hslot
      change (setStr (adminAclKey name) (cfg.dumps acl) s).2.peek _ = _
      unfold leaves at hnot
      cases hdumps : cfg.dumps acl with
      | ok raw => exact absurd rfl (hnot _ (by simp only [hdumps]; exact List.mem_singleton.mpr rfl))
      | error exn => rfl
  | kv key record =>
      obtain rfl := Str.encode_ok.mp hname
      rcases List.mem_pair.mp hslot with rfl | rfl
      · exact absurd ⟨name, rfl⟩ hkv
      · exact absurd ⟨flagOf name, rfl⟩ hkv
  | queue topic entries =>
      obtain rfl := Str.encode_ok.mp hname
      obtain rfl := List.mem_singleton.mp hslot
      exact absurd rfl (hnot _ (List.mem_singleton.mpr rfl))
  | deviceToApp cid app =>
      obtain rfl := Str.encode_ok.mp hname
      obtain rfl := List.mem_singleton.mp hslot
      cases app with
      | surrogates units => rfl
      | text app => exact absurd rfl (hnot _ (List.mem_singleton.mpr rfl))
  | activityLog entries =>
      obtain rfl := List.mem_singleton.mp hslot
      exact absurd rfl (hnot _ (List.mem_singleton.mpr rfl))

-- What is left is left at the entry's own records.
theorem Item.mem_slots_of_leaves {p : Slot × (Option Bytes × Option Stream)}
    (hp : p ∈ item.leaves cfg s) : p.1 ∈ item.slots ∧ ¬ p.1.IsKv := by
  cases item with
  | client cid record =>
      cases cid with
      | surrogates units => exact absurd hp List.not_mem_nil
      | text id =>
          unfold leaves at hp
          cases hsecret : record.secret with
          | surrogates units => simp [hsecret] at hp
          | text secret =>
              simp only [hsecret, List.mem_cons] at hp
              rcases hp with rfl | hp
              · exact ⟨by simp [slots], by simp [Slot.IsKv]⟩
              · cases hdumps : cfg.dumps record.acl with
                | ok raw =>
                    rw [hdumps] at hp
                    obtain rfl := List.mem_singleton.mp hp
                    exact ⟨by simp [slots], by simp [Slot.IsKv]⟩
                | error exn =>
                    rw [hdumps] at hp
                    exact absurd hp List.not_mem_nil
  | adminAcl user acl =>
      cases user with
      | surrogates units => exact absurd hp List.not_mem_nil
      | text user =>
          unfold leaves at hp
          cases hdumps : cfg.dumps acl with
          | ok raw =>
              simp only [hdumps, List.mem_singleton] at hp
              subst hp
              exact ⟨by simp [slots], by simp [Slot.IsKv]⟩
          | error exn => simp [hdumps] at hp
  | kv key record => exact absurd hp List.not_mem_nil
  | queue topic entries =>
      cases topic with
      | surrogates units => exact absurd hp List.not_mem_nil
      | text topic =>
          obtain rfl := List.mem_singleton.mp hp
          exact ⟨by simp [slots], by simp [Slot.IsKv]⟩
  | deviceToApp cid app =>
      cases cid with
      | surrogates units => exact absurd hp List.not_mem_nil
      | text cid =>
          cases app with
          | surrogates units => exact absurd hp List.not_mem_nil
          | text app =>
              obtain rfl := List.mem_singleton.mp hp
              exact ⟨by simp [slots], by simp [Slot.IsKv]⟩
  | activityLog entries =>
      obtain rfl := List.mem_singleton.mp hp
      exact ⟨by simp [slots], by simp [Slot.IsKv]⟩

end Writes

section Steps

variable {cfg : Restoring} {item : Item} {s : State}

-- A step goes through exactly when the entry fits.
theorem restoreItem_ok_iff : (restoreItem cfg item s).1 = .ok () ↔ item.Fits cfg s.store := by
  unfold restoreItem Item.Fits
  rcases (item.task cfg).run_cases with hrefused | ⟨exn, hstopped⟩ | ⟨name, haccepts⟩
  · rw [Task.run_rejected hrefused]
    exact iff_of_true rfl (.inl hrefused)
  · rw [Task.run_stopped hstopped]
    constructor
    · intro h
      cases h
    · rintro (hrefused | ⟨name, ⟨hrefused, hname⟩, -⟩)
      · rcases hstopped with h | ⟨h, -⟩
        · rw [hrefused] at h
          cases h
        · rw [hrefused] at h
          cases h
      · rcases hstopped with h | ⟨-, h⟩
        · rw [hrefused] at h
          cases h
        · rw [hname] at h
          cases h
  · by_cases hskips : (item.task cfg).Skips cfg.forceOverwrite name s.store
    · rw [Task.run_skipped haccepts hskips]
      exact iff_of_true rfl (.inr ⟨name, haccepts, .inl hskips⟩)
    · rw [(Task.run_written haccepts hskips).1, Item.write_ok_iff haccepts]
      constructor
      · intro h
        exact .inr ⟨name, haccepts, .inr h⟩
      · rintro (hrefused | ⟨other, hother, h⟩)
        · rw [haccepts.1] at hrefused
          cases hrefused
        · obtain rfl := Except.ok.inj (haccepts.2.symm.trans hother.2)
          exact h.resolve_left hskips

-- And it changes nothing at the entry's records exactly when the entry is idle.
theorem restoreItem_idle_iff (hkv : ∀ slot ∈ item.slots, ¬ slot.IsKv) :
    (∀ slot ∈ item.slots, (restoreItem cfg item s).2.store.peek slot.key = s.store.peek slot.key) ↔
      item.Idle cfg s.store := by
  unfold restoreItem Item.Idle
  constructor
  · intro h name haccepts hskips p hp
    have hslot := (Item.mem_slots_of_leaves hp).1
    rw [← h p.1 hslot, (Task.run_written haccepts hskips).2.1]
    exact Item.peek_leaves haccepts hp
  · intro hidle slot hslot
    rcases (item.task cfg).run_cases with hrefused | ⟨exn, hstopped⟩ | ⟨name, haccepts⟩
    · rw [Task.run_rejected hrefused]
    · rw [Task.run_stopped hstopped]
    · by_cases hskips : (item.task cfg).Skips cfg.forceOverwrite name s.store
      · rw [Task.run_skipped haccepts hskips]
      · rw [(Task.run_written haccepts hskips).2.1]
        by_cases hleft : ∃ p ∈ item.leaves cfg s.store, p.1 = slot
        · obtain ⟨p, hp, rfl⟩ := hleft
          rw [Item.peek_leaves haccepts hp, hidle name haccepts hskips p hp]
        · refine Item.peek_not_left haccepts hslot (hkv slot hslot) ?_
          intro p hp heq
          exact hleft ⟨p, hp, heq⟩

end Steps

section Congruence

variable {cfg : Restoring} {item : Item} {s t : Store} {name : Text}

theorem truthy_congr {key : Text} (h : s.peek key = t.peek key) :
    truthy (s.get key) = truthy (t.get key) := by
  rw [show s.get key = t.get key from congrArg Prod.fst h]

theorem has_congr {key : Text} (h : s.peek key = t.peek key) : s.has key = t.has key := by
  unfold Store.has
  rw [show s.get key = t.get key from congrArg Prod.fst h,
    show s.stream? key = t.stream? key from congrArg Prod.snd h]

-- An entry looks at its own records only.
theorem Item.present_congr (haccepts : (item.task cfg).Accepts name)
    (h : ∀ slot ∈ item.slots, s.peek slot.key = t.peek slot.key) :
    (item.task cfg).present name s = (item.task cfg).present name t := by
  have hname := haccepts.2
  cases item with
  | client cid record =>
      obtain rfl := Str.encode_ok.mp hname
      exact truthy_congr (h (.secret name) (by simp [slots]))
  | adminAcl user acl =>
      obtain rfl := Str.encode_ok.mp hname
      exact truthy_congr (h (.adminAcl name) (by simp [slots]))
  | kv key record =>
      obtain rfl := Str.encode_ok.mp hname
      exact has_congr (h (.kv name) (by simp [slots]))
  | queue topic entries =>
      obtain rfl := Str.encode_ok.mp hname
      exact has_congr (h (.queue name) (by simp [slots]))
  | deviceToApp cid app =>
      obtain rfl := Str.encode_ok.mp hname
      exact truthy_congr (h (.deviceToApp name) (by simp [slots]))
  | activityLog entries => exact has_congr (h .activityLog (by simp [slots]))

theorem Item.skips_congr (haccepts : (item.task cfg).Accepts name)
    (h : ∀ slot ∈ item.slots, s.peek slot.key = t.peek slot.key) (force : Bool) :
    (item.task cfg).Skips force name s ↔ (item.task cfg).Skips force name t := by
  unfold Task.Skips
  rw [Item.present_congr haccepts h]

theorem Item.fits_congr (h : ∀ slot ∈ item.slots, s.peek slot.key = t.peek slot.key) :
    item.Fits cfg s ↔ item.Fits cfg t := by
  refine or_congr_right (exists_congr fun name => and_congr_right fun haccepts => ?_)
  rw [Item.skips_congr haccepts h]

theorem Item.leaves_congr (h : ∀ slot ∈ item.slots, s.peek slot.key = t.peek slot.key) :
    item.leaves cfg s = item.leaves cfg t := by
  have hstream {key : Text} (hkey : s.peek key = t.peek key) : s.stream? key = t.stream? key :=
    congrArg Prod.snd hkey
  cases item with
  | client cid record =>
      cases cid with
      | surrogates units => rfl
      | text id =>
          have hsecret := hstream (h (.secret id) (by simp [slots]))
          have hacl := hstream (h (.acl id) (by simp [slots]))
          simp only [Slot.key] at hsecret hacl
          simp only [leaves, hsecret, hacl]
  | adminAcl user acl =>
      cases user with
      | surrogates units => rfl
      | text user =>
          have huser := hstream (h (.adminAcl user) (by simp [slots]))
          simp only [Slot.key] at huser
          simp only [leaves, huser]
  | deviceToApp cid app =>
      cases cid with
      | surrogates units => rfl
      | text cid =>
          have hcid := hstream (h (.deviceToApp cid) (by simp [slots]))
          simp only [Slot.key] at hcid
          cases app with
          | surrogates units => rfl
          | text app => simp only [leaves, hcid]
  | kv key record => rfl
  | queue topic entries => cases topic <;> rfl
  | activityLog entries => rfl

theorem Item.idle_congr (h : ∀ slot ∈ item.slots, s.peek slot.key = t.peek slot.key) :
    item.Idle cfg s ↔ item.Idle cfg t := by
  unfold Idle
  rw [Item.leaves_congr h]
  refine forall_congr' fun name => forall_congr' fun haccepts => ?_
  rw [Item.skips_congr haccepts h]
  refine imp_congr_right fun _ => forall_congr' fun p => forall_congr' fun hp => ?_
  rw [h p.1 (mem_slots_of_leaves hp).1]

end Congruence

section Reached

variable {cfg : Restoring} {env : BackupEnvelope} {store : Store} {before after : List Item}
  {item : Item}

def Item.IsKv : Item → Prop
  | .kv _ _ => True
  | _ => False

theorem not_isKv_of_mem_slots (h : ¬ item.IsKv) : ∀ slot ∈ item.slots, ¬ slot.IsKv := by
  rintro slot hslot ⟨key, rfl⟩
  cases item with
  | kv key record => exact h trivial
  | activityLog entries => exact absurd (List.mem_singleton.mp hslot) Slot.noConfusion
  | client name _ =>
      cases name with
      | surrogates units => exact absurd hslot List.not_mem_nil
      | text name => rcases List.mem_pair.mp hslot with h | h <;> cases h
  | adminAcl name _ | queue name _ | deviceToApp name _ =>
      cases name with
      | surrogates units => exact absurd hslot List.not_mem_nil
      | text name => cases List.mem_singleton.mp hslot

theorem not_isKv_of_mem_slot {slot : Slot} (hslot : slot ∈ item.slots) (hkv : ¬ slot.IsKv) :
    ¬ item.IsKv := by
  intro hitem
  cases item with
  | kv key record =>
      cases key with
      | surrogates units => exact absurd hslot List.not_mem_nil
      | text key =>
          rcases List.mem_pair.mp hslot with rfl | rfl
          · exact hkv ⟨key, rfl⟩
          · exact hkv ⟨flagOf key, rfl⟩
  | _ => exact hitem

theorem not_isKv_of_leaves {p : Slot × (Option Bytes × Option Stream)}
    (hp : p ∈ item.leaves cfg store) : ¬ item.IsKv := by
  intro hkv
  cases item with
  | kv key record => exact absurd hp List.not_mem_nil
  | _ => exact hkv

-- Whether an entry that is reached fits can be told from the store at the start.
theorem fits_of_reaches (hreaches : Reaches (restoreItem cfg) env.items before item (.start store)) :
    item.Fits cfg (batch (restoreItem cfg) before (.start store)).2.store ↔ item.Fits cfg store := by
  by_cases hkv : item.IsKv
  · cases item with
    | kv key record =>
        refine or_congr_right (exists_congr fun name => and_congr_right fun _ => ?_)
        exact iff_of_true (.inr trivial) (.inr trivial)
    | _ => exact absurd hkv id
  · apply Item.fits_congr
    intro slot hslot
    exact peek_before hreaches hslot (not_isKv_of_mem_slots hkv slot hslot)

theorem batch_ok_iff_fits (hsplit : env.items = before ++ after) :
    (batch (restoreItem cfg) before (.start store)).1 = .ok () ↔
      ∀ item ∈ before, item.Fits cfg store := by
  apply batch_ok_iff
  rintro first item ⟨⟨rest, rfl⟩, hfirst⟩
  have hreaches : Reaches (restoreItem cfg) env.items first item (.start store) :=
    ⟨⟨rest ++ after, by rw [hsplit]; simp⟩, hfirst⟩
  rw [restoreItem_ok_iff, fits_of_reaches hreaches]

-- The restore gets to an entry when the ones before it fit.
theorem reaches_iff_fits : Reaches (restoreItem cfg) env.items before item (.start store) ↔
    (∃ after, env.items = before ++ item :: after) ∧ ∀ b ∈ before, b.Fits cfg store := by
  refine and_congr_right ?_
  rintro ⟨after, hsplit⟩
  exact batch_ok_iff_fits hsplit

-- And gets through when all of them fit.
theorem completes_iff_fits : (∃ result, (applyEnvelope cfg env store).1 = .ok result) ↔
    ∀ item ∈ env.items, item.Fits cfg store := by
  have hsplit : env.items = env.items ++ [] := (List.append_nil _).symm
  rw [← batch_ok_iff_fits hsplit]
  change (∃ result, ((batch (restoreItem cfg) env.items (.start store)).1.map _) = .ok result) ↔ _
  cases (batch (restoreItem cfg) env.items (.start store)).1 with
  | ok value => exact iff_of_true ⟨_, rfl⟩ rfl
  | error exn => simp [Except.map]

-- What a reached entry leaves shows at the end, but for values and flags.
theorem idle_of_reaches (hreaches : Reaches (restoreItem cfg) env.items before item (.start store))
    (hkv : ¬ item.IsKv) : (∀ slot ∈ item.slots, (applyEnvelope cfg env store).2.peek slot.key =
      store.peek slot.key) ↔ item.Idle cfg store := by
  have hslots := not_isKv_of_mem_slots hkv
  have hbefore : ∀ slot ∈ item.slots,
      (batch (restoreItem cfg) before (.start store)).2.store.peek slot.key = store.peek slot.key :=
    fun slot hslot => peek_before hreaches hslot (hslots slot hslot)
  rw [← Item.idle_congr hbefore, ← restoreItem_idle_iff hslots]
  refine forall_congr' fun slot => forall_congr' fun hslot => ?_
  rw [peek_after hreaches hslot (hslots slot hslot), hbefore slot hslot]

end Reached

end Stra2us.Backup
