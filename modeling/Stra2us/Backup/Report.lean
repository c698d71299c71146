import Stra2us.Backup.Effects

namespace Stra2us.Backup

open Foundation Server

section Titles

variable (cfg : Restoring)

def Str.units : Str → List Nat
  | .text t => t.map Char.toNat
  | .surrogates units => units

theorem Str.units_prepend (pre : Text) (s : Str) :
    (s.prepend pre).units = pre.map Char.toNat ++ s.units := by
  cases s with
  | text t => simp [prepend, units]
  | surrogates units => rfl

theorem Str.prepend_injective (pre : Text) : Function.Injective (Str.prepend pre) := by
  intro a b h
  cases a with
  | text a =>
      cases b with
      | text b => rw [List.append_cancel_left (Str.text.inj h)]
      | surrogates b => cases h
  | surrogates a =>
      cases b with
      | text b => cases h
      | surrogates b => rw [List.append_cancel_left (Str.surrogates.inj h)]

-- The parts differ in the first letter of what is reported for them.
def Item.initial : Item → Option Nat
  | .client _ _ => some 'c'.toNat
  | .adminAcl _ _ => some 'a'.toNat
  | .kv _ _ => some 'k'.toNat
  | .queue _ _ => some 'q'.toNat
  | .deviceToApp _ _ => some 'd'.toNat
  | .activityLog _ => none

theorem Item.units_label (item : Item) : (item.task cfg).label.units.head? = item.initial := by
  cases item with
  | activityLog entries => rfl
  | _ => exact congrArg List.head? (Str.units_prepend _ _)

theorem Item.label_of_title {a b : Item} (h : (a.task cfg).label = (b.task cfg).label) :
    a.label = b.label := by
  have hinitial : a.initial = b.initial := by
    rw [← units_label cfg a, ← units_label cfg b, h]
  cases a with
  | client cid _ =>
      cases b with
      | client other _ => exact congrArg Label.client (Str.prepend_injective _ h)
      | _ => simp [initial] at hinitial
  | adminAcl user _ =>
      cases b with
      | adminAcl other _ => exact congrArg Label.adminAcl (Str.prepend_injective _ h)
      | _ => simp [initial] at hinitial
  | kv key _ =>
      cases b with
      | kv other _ => exact congrArg Label.kv (Str.prepend_injective _ h)
      | _ => simp [initial] at hinitial
  | queue topic _ =>
      cases b with
      | queue other _ => exact congrArg Label.queue (Str.prepend_injective _ h)
      | _ => simp [initial] at hinitial
  | deviceToApp cid _ =>
      cases b with
      | deviceToApp other _ => exact congrArg Label.deviceToApp (Str.prepend_injective _ h)
      | _ => simp [initial] at hinitial
  | activityLog _ =>
      cases b with
      | activityLog _ => rfl
      | _ => simp [initial] at hinitial

end Titles

section Standing

variable (cfg : Restoring)

def Section.Lists (s : Section) (name : Str) : Outcome → Prop
  | .restored => name ∈ s.restored
  | .skipped => name ∈ s.skipped
  | .overwritten => name ∈ s.overwritten

-- Of the log the report has a count and two flags.
def LogSection.Shows (s : LogSection) (count : Nat) : Outcome → Prop
  | .restored => s.restored = count ∧ s.skipped = false ∧ s.overwritten = false
  | .skipped => s.skipped = true
  | .overwritten => s.overwritten = true

def Item.Reported (result : Result) (outcome : Outcome) : Item → Prop
  | .client cid _ => result.clients.Lists cid outcome
  | .adminAcl user _ => result.adminAcls.Lists user outcome
  | .kv key _ => result.kv.Lists key outcome
  | .queue topic _ => result.queues.Lists topic outcome
  | .deviceToApp cid _ => result.deviceToApp.Lists cid outcome
  | .activityLog entries => result.activityLog.Shows entries.length outcome

def Item.Rejected (result : Result) (item : Item) : Prop :=
  (item.task cfg).label ∈ result.rejectedOutsideAppFilter

def Item.IsLog : Item → Prop
  | .activityLog _ => True
  | _ => False

-- A log of no entries counts as restored from the start.
def Item.Unreported (result : Result) (item : Item) : Prop :=
  ∀ outcome, (outcome = .restored → ¬ item.IsLog) → ¬ item.Reported result outcome

theorem Section.lists_note_self (s : Section) (name : Str) (outcome other : Outcome)
    (h : ∀ o, ¬ s.Lists name o) : (s.note name outcome).Lists name other ↔ other = outcome := by
  have hrestored := h .restored
  have hskipped := h .skipped
  have hoverwritten := h .overwritten
  simp only [Lists] at hrestored hskipped hoverwritten
  cases outcome <;> cases other <;> simp [note, Lists, hrestored, hskipped, hoverwritten]

theorem Section.lists_note_of_ne (s : Section) {name other : Str} (h : other ≠ name)
    (outcome outcome' : Outcome) :
    (s.note name outcome).Lists other outcome' ↔ s.Lists other outcome' := by
  cases outcome <;> cases outcome' <;> simp [note, Lists, h]

variable {cfg} {item other : Item} {result : Result}

theorem Item.reported_note_self (h : item.Unreported result) (outcome outcome' : Outcome) :
    item.Reported ((item.task cfg).note outcome result) outcome' ↔ outcome' = outcome := by
  cases item with
  | activityLog entries =>
      have hskipped : result.activityLog.skipped = false :=
        Bool.eq_false_iff.mpr (h .skipped fun heq => nomatch heq)
      have hoverwritten : result.activityLog.overwritten = false :=
        Bool.eq_false_iff.mpr (h .overwritten fun heq => nomatch heq)
      change (result.activityLog.note entries.length outcome).Shows entries.length outcome' ↔ _
      cases outcome <;> cases outcome' <;>
        simp [LogSection.note, LogSection.Shows, hskipped, hoverwritten]
  | _ => exact Section.lists_note_self _ _ _ _ fun o => h o fun _ hlog => hlog

-- What is noted for one entry says nothing of another.
theorem Item.reported_note_of_ne (h : other.label ≠ item.label) (outcome outcome' : Outcome) :
    item.Reported ((other.task cfg).note outcome result) outcome' ↔
      item.Reported result outcome' := by
  cases other with
  | client cid _ =>
      cases item with
      | client name _ =>
          exact Section.lists_note_of_ne _ (fun heq => h (congrArg Label.client heq.symm)) _ _
      | _ => exact Iff.rfl
  | adminAcl user _ =>
      cases item with
      | adminAcl name _ =>
          exact Section.lists_note_of_ne _ (fun heq => h (congrArg Label.adminAcl heq.symm)) _ _
      | _ => exact Iff.rfl
  | kv key _ =>
      cases item with
      | kv name _ =>
          exact Section.lists_note_of_ne _ (fun heq => h (congrArg Label.kv heq.symm)) _ _
      | _ => exact Iff.rfl
  | queue topic _ =>
      cases item with
      | queue name _ =>
          exact Section.lists_note_of_ne _ (fun heq => h (congrArg Label.queue heq.symm)) _ _
      | _ => exact Iff.rfl
  | deviceToApp cid _ =>
      cases item with
      | deviceToApp name _ =>
          exact Section.lists_note_of_ne _ (fun heq => h (congrArg Label.deviceToApp heq.symm)) _ _
      | _ => exact Iff.rfl
  | activityLog _ =>
      cases item with
      | activityLog _ => exact absurd rfl h
      | _ => exact Iff.rfl

theorem Item.rejected_note (outcome : Outcome) :
    ((other.task cfg).note outcome result).rejectedOutsideAppFilter =
      result.rejectedOutsideAppFilter := by
  cases other <;> rfl

end Standing

section Runs

variable {cfg : Restoring} {env : BackupEnvelope} {store : Store} {before after : List Item}
  {item other : Item} {s : State}

-- What a step does to the report.
theorem result_restoreItem (item : Item) (s : State) :
    (restoreItem cfg item s).2.result = s.result ∨
    (item.task cfg).refused = .ok true ∧ (restoreItem cfg item s).2.result =
      { s.result with rejectedOutsideAppFilter :=
          s.result.rejectedOutsideAppFilter ++ [(item.task cfg).label] } ∨
    ∃ outcome, (restoreItem cfg item s).2.result = (item.task cfg).note outcome s.result := by
  unfold restoreItem
  rcases (item.task cfg).run_cases with hrefused | ⟨exn, hstopped⟩ | ⟨name, haccepts⟩
  · rw [Task.run_rejected hrefused]
    exact .inr (.inl ⟨hrefused, rfl⟩)
  · rw [Task.run_stopped hstopped]
    exact .inl rfl
  · by_cases hskips : (item.task cfg).Skips cfg.forceOverwrite name s.store
    · rw [Task.run_skipped haccepts hskips]
      exact .inr (.inr ⟨.skipped, rfl⟩)
    · have hnot : ¬ ((item.task cfg).present name s.store = true ∧ ¬ cfg.forceOverwrite = true) := by
        simpa [Task.Skips] using hskips
      unfold Task.run
      rw [haccepts.1, haccepts.2]
      dsimp only
      rw [if_neg hnot]
      cases hwrite : (item.task cfg).write name ((item.task cfg).present name s.store) s.store with
      | mk outcome stored =>
          cases outcome with
          | error exn => exact .inl rfl
          | ok value => exact .inr (.inr ⟨_, rfl⟩)

theorem reported_restoreItem (h : other.label ≠ item.label) (outcome : Outcome) (s : State) :
    item.Reported (restoreItem cfg other s).2.result outcome ↔ item.Reported s.result outcome := by
  rcases result_restoreItem other s with hsame | ⟨-, hreject⟩ | ⟨noted, hnote⟩
  · rw [hsame]
  · rw [hreject]
    cases item <;> rfl
  · rw [hnote]
    exact Item.reported_note_of_ne h noted outcome

theorem rejected_restoreItem_iff (h : other.label ≠ item.label) (s : State) :
    item.Rejected cfg (restoreItem cfg other s).2.result ↔ item.Rejected cfg s.result := by
  unfold Item.Rejected
  rcases result_restoreItem other s with hsame | ⟨-, hreject⟩ | ⟨noted, hnote⟩
  · rw [hsame]
  · have hne : (item.task cfg).label ≠ (other.task cfg).label :=
      fun heq => h (Item.label_of_title cfg heq).symm
    rw [hreject]
    simp [hne]
  · rw [hnote, Item.rejected_note]

-- The other entries of a batch leave the report of this one as it is.
theorem reported_batch {items : List Item} (h : ∀ b ∈ items, b.label ≠ item.label)
    (outcome : Outcome) (s : State) :
    item.Reported (batch (restoreItem cfg) items s).2.result outcome ↔
      item.Reported s.result outcome :=
  batch_keeps (fun a b : State => item.Reported b.result outcome ↔ item.Reported a.result outcome)
    (fun _ => Iff.rfl) (fun _ _ _ hab hbc => hbc.trans hab)
    (fun b hb s => reported_restoreItem (h b hb) outcome s) s

theorem rejected_batch_iff {items : List Item} (h : ∀ b ∈ items, b.label ≠ item.label)
    (s : State) : item.Rejected cfg (batch (restoreItem cfg) items s).2.result ↔
      item.Rejected cfg s.result :=
  batch_keeps (fun a b : State => item.Rejected cfg b.result ↔ item.Rejected cfg a.result)
    (fun _ => Iff.rfl) (fun _ _ _ hab hbc => hbc.trans hab)
    (fun b hb s => rejected_restoreItem_iff (h b hb) s) s

theorem unreported_start (item : Item) : item.Unreported (State.start store).result := by
  intro outcome hlog
  cases item with
  | activityLog entries =>
      cases outcome with
      | restored => exact absurd trivial (hlog rfl)
      | skipped => exact Bool.false_ne_true
      | overwritten => exact Bool.false_ne_true
  | _ => cases outcome <;> exact List.not_mem_nil

theorem unreported_before (hsplit : env.items = before ++ item :: after) :
    item.Unreported (batch (restoreItem cfg) before (.start store)).2.result := by
  intro outcome hlog
  rw [reported_batch (label_ne_of_split hsplit).1]
  exact unreported_start item outcome hlog

theorem not_rejected_before (hsplit : env.items = before ++ item :: after) :
    ¬ item.Rejected cfg (batch (restoreItem cfg) before (.start store)).2.result := by
  rw [rejected_batch_iff (label_ne_of_split hsplit).1]
  exact List.not_mem_nil

theorem applyEnvelope_ok_iff {result : Result} : (applyEnvelope cfg env store).1 = .ok result ↔
    (batch (restoreItem cfg) env.items (.start store)).1 = .ok () ∧
      (batch (restoreItem cfg) env.items (.start store)).2.result = result := by
  change ((batch (restoreItem cfg) env.items (.start store)).1.map _) = .ok result ↔ _
  cases (batch (restoreItem cfg) env.items (.start store)).1 with
  | ok value =>
      have hstart : restoreItems cfg env.items store =
          batch (restoreItem cfg) env.items (.start store) := rfl
      simp [Except.map, hstart]
  | error exn => simp [Except.map]

-- A run without error gets to every entry and past it.
theorem reaches_of_ok (hok : (batch (restoreItem cfg) env.items (.start store)).1 = .ok ())
    (hsplit : env.items = before ++ item :: after) :
    Reaches (restoreItem cfg) env.items before item (.start store) := by
  refine ⟨⟨after, hsplit⟩, ?_⟩
  cases hbefore : (batch (restoreItem cfg) before (.start store)).1 with
  | ok value => rfl
  | error exn =>
      rw [hsplit, batch_append_error hbefore, hbefore] at hok
      cases hok

theorem batch_split (hok : (batch (restoreItem cfg) env.items (.start store)).1 = .ok ())
    (hsplit : env.items = before ++ item :: after) :
    (restoreItem cfg item (batch (restoreItem cfg) before (.start store)).2).1 = .ok () ∧
    batch (restoreItem cfg) env.items (.start store) = batch (restoreItem cfg) after
      (restoreItem cfg item (batch (restoreItem cfg) before (.start store)).2).2 := by
  have hbefore := (reaches_of_ok hok hsplit).2
  rw [hsplit, batch_append_ok hbefore] at hok ⊢
  cases hstep : (restoreItem cfg item (batch (restoreItem cfg) before (.start store)).2).1 with
  | ok value => exact ⟨rfl, batch_cons_ok hstep⟩
  | error exn =>
      rw [batch_cons_error hstep] at hok
      cases hok

end Runs

section Accounts

variable {cfg : Restoring} {env : BackupEnvelope} {store : Store} {before after : List Item}
  {item : Item} {result : Result}

-- What the run finds when it comes to an entry.
def Item.Finds (cfg : Restoring) (store : Store) (before : List Item) (item : Item) (there : Bool) :
    Prop :=
  ∃ name, (item.task cfg).Accepts name ∧
    (item.task cfg).present name (batch (restoreItem cfg) before (.start store)).2.store = there

-- Where nothing may be overwritten, the report says of each entry what was found.
theorem reported_iff (hskip : cfg.forceOverwrite = false)
    (hok : (applyEnvelope cfg env store).1 = .ok result)
    (hsplit : env.items = before ++ item :: after) :
    (item.Reported result .restored ∧ ¬ item.Reported result .skipped ∧ ¬ item.Rejected cfg result ∧
      item.Finds cfg store before false) ∨
    (¬ item.Reported result .restored ∧ item.Reported result .skipped ∧ ¬ item.Rejected cfg result ∧
      item.Finds cfg store before true) ∨
    (¬ item.Reported result .restored ∧ ¬ item.Reported result .skipped ∧ item.Rejected cfg result ∧
      (item.task cfg).refused = .ok true) := by
  obtain ⟨hrun, rfl⟩ := applyEnvelope_ok_iff.mp hok
  obtain ⟨hstep, hrest⟩ := batch_split hrun hsplit
  have hafter := (label_ne_of_split hsplit).2
  rw [hrest, reported_batch hafter, reported_batch hafter, rejected_batch_iff hafter]
  have hunreported : item.Unreported (batch (restoreItem cfg) before (.start store)).2.result :=
    unreported_before hsplit
  have hnot : ¬ item.Rejected cfg (batch (restoreItem cfg) before (.start store)).2.result :=
    not_rejected_before hsplit
  generalize hs : (batch (restoreItem cfg) before (.start store)).2 = s at *
  have hnoted (outcome : Outcome)
      (h : (restoreItem cfg item s).2.result = (item.task cfg).note outcome s.result) :
      (∀ outcome', item.Reported (restoreItem cfg item s).2.result outcome' ↔ outcome' = outcome) ∧
        ¬ item.Rejected cfg (restoreItem cfg item s).2.result := by
    rw [h]
    refine ⟨fun outcome' => Item.reported_note_self hunreported outcome outcome', ?_⟩
    unfold Item.Rejected
    rw [Item.rejected_note]
    exact hnot
  rcases (item.task cfg).run_cases with hrefused | ⟨exn, hstopped⟩ | ⟨name, haccepts⟩
  · refine .inr (.inr ?_)
    have hlog : ¬ item.IsLog := by
      cases item with
      | activityLog entries => cases hrefused
      | _ => exact id
    have hresult : (restoreItem cfg item s).2.result = { s.result with rejectedOutsideAppFilter :=
        s.result.rejectedOutsideAppFilter ++ [(item.task cfg).label] } := by
      unfold restoreItem
      rw [Task.run_rejected hrefused]
    have hsame (outcome : Outcome) : ¬ item.Reported (restoreItem cfg item s).2.result outcome := by
      rw [hresult]
      have hold := hunreported outcome fun _ => hlog
      cases item <;> exact hold
    refine ⟨hsame _, hsame _, ?_, hrefused⟩
    unfold Item.Rejected
    rw [hresult]
    simp
  · unfold restoreItem at hstep
    rw [Task.run_stopped hstopped] at hstep
    cases hstep
  · by_cases hskips : (item.task cfg).Skips cfg.forceOverwrite name s.store
    · obtain ⟨hreported, hrejected⟩ := hnoted .skipped (by
        unfold restoreItem
        rw [Task.run_skipped haccepts hskips])
      refine .inr (.inl ⟨?_, ?_, hrejected, name, haccepts, ?_⟩)
      · simp [hreported]
      · simp [hreported]
      · rw [hs]
        exact hskips.1
    · have hpresent : (item.task cfg).present name s.store = false := by
        by_contra hthere
        exact hskips ⟨by simpa using hthere, hskip⟩
      have hwritten := Task.run_written haccepts hskips
      obtain ⟨hreported, hrejected⟩ := hnoted .restored (by
        unfold restoreItem at hstep ⊢
        rw [hwritten.2.2 (hwritten.1 ▸ hstep), hpresent]
        rfl)
      refine .inl ⟨?_, ?_, hrejected, name, haccepts, ?_⟩
      · simp [hreported]
      · simp [hreported]
      · rw [hs]
        exact hpresent

-- One of the three holds of the entry, and the others do not.
def Item.Accounted (cfg : Restoring) (result : Result) (item : Item) : Prop :=
  (item.Reported result .restored ∧ ¬ item.Reported result .skipped ∧ ¬ item.Rejected cfg result) ∨
  (¬ item.Reported result .restored ∧ item.Reported result .skipped ∧ ¬ item.Rejected cfg result) ∨
  (¬ item.Reported result .restored ∧ ¬ item.Reported result .skipped ∧ item.Rejected cfg result)

theorem accounted_of_mem (hskip : cfg.forceOverwrite = false)
    (hok : (applyEnvelope cfg env store).1 = .ok result) (hitem : item ∈ env.items) :
    item.Accounted cfg result := by
  obtain ⟨before, after, hsplit⟩ := List.append_of_mem hitem
  rcases reported_iff hskip hok hsplit with ⟨ha, hb, hc, -⟩ | ⟨ha, hb, hc, -⟩ | ⟨ha, hb, hc, -⟩
  · exact .inl ⟨ha, hb, hc⟩
  · exact .inr (.inl ⟨ha, hb, hc⟩)
  · exact .inr (.inr ⟨ha, hb, hc⟩)

-- An entry is restored where the run found nothing.
theorem restored_iff_finds (hskip : cfg.forceOverwrite = false)
    (hok : (applyEnvelope cfg env store).1 = .ok result)
    (hsplit : env.items = before ++ item :: after) :
    item.Reported result .restored ↔ item.Finds cfg store before false := by
  rcases reported_iff hskip hok hsplit with ⟨ha, -, -, hfinds⟩ | ⟨ha, -, -, hfinds⟩ |
    ⟨ha, -, -, hrefused⟩
  · exact iff_of_true ha hfinds
  · refine iff_of_false ha ?_
    rintro ⟨name, haccepts, habsent⟩
    obtain ⟨other, hother, hpresent⟩ := hfinds
    obtain rfl := Except.ok.inj (haccepts.2.symm.trans hother.2)
    rw [hpresent] at habsent
    cases habsent
  · refine iff_of_false ha ?_
    rintro ⟨name, haccepts, -⟩
    rw [haccepts.1] at hrefused
    cases hrefused

end Accounts

end Stra2us.Backup
