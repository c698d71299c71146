import Stra2us.Backup.Effects
import Stra2us.Queue.Walk

namespace Stra2us.Backup

open Foundation Server

section Reported

variable {cfg : Restoring} {env : BackupEnvelope} {store : Store} {topic : Text} {task : Task}

def Section.filledIn (s : Section) : List Str :=
  s.restored ++ s.overwritten

-- A queue that the restore gets to, lets through, and does not leave to the one that is there.
structure Refills (cfg : Restoring) (env : BackupEnvelope) (store : Store) (topic : Text)
    (queued : List StreamEntry) (before : List Item) : Prop where
  reaches : Reaches (restoreItem cfg) env.items before (.queue (.text topic) queued) (.start store)
  accepts : (restoreQueue cfg (.text topic) queued).Accepts topic
  writes : ¬ (restoreQueue cfg (.text topic) queued).Skips cfg.forceOverwrite topic
    (batch (restoreItem cfg) before (.start store)).2.store

theorem Section.filledIn_note (name : Str) (outcome : Outcome) (s : Section) :
    ∀ other ∈ (s.note name outcome).filledIn,
      other ∈ s.filledIn ∨ other = name ∧ outcome ≠ .skipped := by
  intro other hother
  cases outcome with
  | skipped => exact .inl hother
  | restored =>
      simp only [filledIn, note, List.mem_append, List.mem_singleton] at hother ⊢
      rcases hother with (hold | hnew) | hold
      · exact .inl (.inl hold)
      · exact .inr ⟨hnew, by simp⟩
      · exact .inl (.inr hold)
  | overwritten =>
      simp only [filledIn, note, List.mem_append, List.mem_singleton] at hother ⊢
      rcases hother with hold | hold | hnew
      · exact .inl (.inl hold)
      · exact .inl (.inr hold)
      · exact .inr ⟨hnew, by simp⟩

-- What a step adds to the queues it reports.
theorem queues_run (s : State) (force : Bool) :
    (task.run force s).2.result.queues = s.result.queues ∨
      ∃ outcome, (task.run force s).2.result.queues = (task.note outcome s.result).queues ∧
        (outcome ≠ .skipped → ∃ name, task.Accepts name ∧ ¬ task.Skips force name s.store) := by
  rcases task.run_cases with hrefused | ⟨exn, hstopped⟩ | ⟨name, haccepts⟩
  · rw [Task.run_rejected hrefused]
    exact .inl rfl
  · rw [Task.run_stopped hstopped]
    exact .inl rfl
  · by_cases hskips : task.Skips force name s.store
    · rw [Task.run_skipped haccepts hskips]
      exact .inr ⟨.skipped, rfl, fun h => absurd rfl h⟩
    · have hnot : ¬ (task.present name s.store = true ∧ ¬ force = true) := by
        simpa [Task.Skips] using hskips
      unfold Task.run
      rw [haccepts.1, haccepts.2]
      dsimp only
      rw [if_neg hnot]
      cases hwrite : task.write name (task.present name s.store) s.store with
      | mk outcome stored =>
          cases outcome with
          | error exn => exact .inl rfl
          | ok value => exact .inr ⟨_, rfl, fun _ => ⟨name, haccepts, hskips⟩⟩

theorem refills_of_reported (h : .text topic ∈
      (batch (restoreItem cfg) env.items (.start store)).2.result.queues.filledIn) :
    ∃ queued before, Refills cfg env store topic queued before := by
  have hinv := @batch_invariant_of_reaches Item State Exn (restoreItem cfg)
    (fun s => .text topic ∈ s.result.queues.filledIn →
      ∃ queued before, Refills cfg env store topic queued before) env.items (.start store) ?_ ?_
  · exact hinv h
  · intro before item hreaches hold hnew
    rcases @queues_run (item.task cfg) (batch (restoreItem cfg) before (.start store)).2
      cfg.forceOverwrite with hsame | ⟨outcome, hnote, hwritten⟩
    · exact hold (by rwa [restoreItem, hsame] at hnew)
    · rw [restoreItem, hnote] at hnew
      cases item with
      | queue name queued =>
          cases Section.filledIn_note name outcome _ _ hnew with
          | inl hbefore => exact hold hbefore
          | inr hreported =>
              obtain ⟨rfl, hkind⟩ := hreported
              obtain ⟨name, haccepts, hskips⟩ := hwritten hkind
              obtain rfl : topic = name := Except.ok.inj haccepts.2
              exact ⟨queued, before, hreaches, haccepts, hskips⟩
      | client cid record => exact hold hnew
      | adminAcl user acl => exact hold hnew
      | kv key record => exact hold hnew
      | deviceToApp cid app => exact hold hnew
      | activityLog entries => exact hold hnew
  · intro hstart
    cases hstart

-- The queue is then made of the entries of the envelope alone.
theorem Refills.peek {queued : List StreamEntry} {before : List Item}
    (h : Refills cfg env store topic queued before) :
    (applyEnvelope cfg env store).2.peek (queueKey topic) = (none, filled cfg none queued) := by
  have hslot : Slot.queue topic ∈ (Item.queue (.text topic) queued).slots := by simp [Item.slots]
  have hafter := peek_after h.reaches hslot (by simp [Slot.IsKv])
  have hwritten := (Task.run_written h.accepts h.writes).2.1
  change _ = (Task.run _ _ _).2.store.peek _ at hafter
  change (applyEnvelope cfg env store).2.peek (queueKey topic) = _ at hafter
  rw [hafter]
  change ((restoreQueue cfg (.text topic) queued).run cfg.forceOverwrite
    (batch (restoreItem cfg) before (.start store)).2).2.store.peek (queueKey topic) = _
  rw [hwritten]
  exact (refill_eq cfg (queueKey topic) queued
    (batch (restoreItem cfg) before (.start store)).2.store).2

theorem cursorKey_ne_slot (consumer : Text) (slot : Slot) : slot.key ≠ cursorKey consumer topic := by
  intro hkey
  cases slot with
  | secret id => cases hkey
  | acl id => cases hkey
  | adminAcl user => cases hkey
  | kv key => cases hkey
  | queue topic => cases hkey
  | deviceToApp id => cases hkey
  | activityLog => cases hkey

-- No envelope brings a cursor.
theorem get_cursor (consumer : Text) :
    (applyEnvelope cfg env store).2.get (cursorKey consumer topic) =
      store.get (cursorKey consumer topic) :=
  congrArg Prod.fst (peek_batch cfg (fun _ _ slot _ => cursorKey_ne_slot consumer slot)
    (.start store))

end Reported

end Stra2us.Backup

namespace Stra2us.Queue

open Foundation Server Backup

section FromNow

variable {hmac : Hmac} {topic consumer : Text} {w : World} {id : StreamId} {entry : Entry}
  {earlier : List Entry}

-- What was published after the one moment and before the other.
def PublishedSince (topic : Text) (w w' : World) (entry : Entry) : Prop :=
  ∃ more, entries topic w' = entries topic w ++ more ∧ entry ∈ more

-- Along the run the consumer gets only what is published in it.
def FromNow (hmac : Hmac) (topic consumer : Text) (w : World) (acts : List Act) : Prop :=
  ∀ r ∈ history hmac topic w acts, ∀ entry, r.handed hmac topic = some (consumer, entry) →
    PublishedSince topic w r.before entry

-- The entries that are left have all expired, or the first that has not cannot be handed out.
def Spent (envelope : Bool) (now : Int) (left : List Entry) : Prop :=
  ∀ entry, firstLive now left = .ok (some entry) → ∀ body, messageBody envelope entry ≠ .ok body

-- What this request finds of the earlier entries is spent.
def Record.Spares (topic consumer : Text) (earlier : List Entry) (r : Record) : Prop :=
  match r.act with
  | .consume context _ envelope =>
      context.clientId = consumer → checkAcl context.acl ("q/".toList ++ topic) .read = .ok () →
        Spent envelope r.before.clock
          (earlier.filter fun entry => cursorOf topic consumer r.before < entry.id)
  | _ => True

-- Of the entries beyond the cursor the earlier ones come first.
theorem firstLive_grown {more : List Entry} {now : Int}
    (hgrown : entries topic w = earlier ++ more) :
    firstLive now ((w.store.stream (queueKey topic)).after id) =
      match firstLive now (earlier.filter fun entry => id < entry.id) with
      | .ok none => firstLive now (more.filter fun entry => id < entry.id)
      | found => found := by
  unfold Stream.after
  change firstLive now ((entries topic w).filter _) = _
  rw [hgrown, List.filter_append]
  exact firstLive_append _

theorem mem_of_firstLive {now : Int} {left : List Entry}
    (h : firstLive now left = .ok (some entry)) : entry ∈ left := by
  rcases firstLive_cases now left with hnone | ⟨passed, found, rest, hsplit, -, -, hfound⟩ |
    ⟨passed, bad, rest, exn, -, -, -, hstuck⟩
  · rw [hnone] at h
    cases h
  · rw [hfound] at h
    obtain rfl := Option.some.inj (Except.ok.inj h)
    rw [hsplit]
    simp
  · rw [hstuck] at h
    cases h

-- No entry comes twice.
theorem not_publishedSince (hmem : entry ∈ entries topic w) {w' : World} :
    ¬ PublishedSince topic w w' entry := by
  rintro ⟨more, hgrown, hmore⟩
  have hsorted : (entries topic w').Pairwise fun a b => a.id < b.id :=
    (w'.store.stream (queueKey topic)).sorted
  rw [hgrown] at hsorted
  exact absurd ((List.pairwise_append.mp hsorted).2.2 entry hmem entry hmore) (lt_irrefl _)

theorem fromNow_iff_spares (hid : position (w.store.get (cursorKey consumer topic)) = some id)
    (acts : List Act) :
    FromNow hmac topic consumer w acts ↔
      ∀ r ∈ history hmac topic w acts, r.Spares topic consumer (entries topic w) := by
  refine forall_congr' fun r => forall_congr' fun hr => ?_
  obtain ⟨honward, hshape⟩ := @mem_history hmac topic consumer w acts r hr
  obtain ⟨more, hgrown⟩ := honward.grown
  obtain ⟨id', hid', -⟩ := honward.cursor id hid
  have hcursor : cursorOf topic consumer r.before = id' := cursorOf_of_position hid'
  constructor
  · intro hsince
    unfold Record.Spares
    cases hact : r.act with
    | publish context request ttl => trivial
    | tick clock redisMs => trivial
    | consume context request envelope =>
        intro hwho hacl entry hfirst body hbody
        subst hwho
        rw [hcursor] at hfirst
        have hhanded : r.handed hmac topic = some (context.clientId, entry) := by
          rw [hshape, hact]
          refine (handed_iff hid').mpr ⟨hacl, ?_, body, hbody⟩
          rw [firstLive_grown hgrown, hfirst]
        exact not_publishedSince (List.mem_filter.mp (mem_of_firstLive hfirst)).1
          (hsince entry hhanded)
  · intro hspares entry hhanded
    obtain ⟨context, request, envelope, hact, rfl⟩ := consume_of_handed hhanded
    unfold Record.Spares at hspares
    rw [hact] at hspares
    rw [hshape, hact] at hhanded
    obtain ⟨hacl, hfirst, body, hbody⟩ := (handed_iff hid').mp hhanded
    have hspent := hspares rfl hacl
    rw [hcursor] at hspent
    rw [firstLive_grown hgrown] at hfirst
    cases hearlier : firstLive r.before.clock
        ((entries topic w).filter fun entry => id' < entry.id) with
    | error exn =>
        rw [hearlier] at hfirst
        cases hfirst
    | ok found =>
        rw [hearlier] at hfirst
        cases found with
        | none => exact ⟨more, hgrown, (List.mem_filter.mp (mem_of_firstLive hfirst)).1⟩
        | some other =>
            obtain rfl := Option.some.inj (Except.ok.inj hfirst)
            exact absurd hbody (hspent other hearlier body)

def restoredEntries (cfg : Restoring) (queued : List StreamEntry) : List Entry :=
  ((filled cfg none queued).getD .empty).entries

end FromNow

section Meeting

def unfiltered : Restoring :=
  { Restoring.forced with appFilter := none }

def restoredEntry : Entry :=
  ⟨⟨1, 1⟩, [("payload".toList, [1]), ("exp".toList, utf8 "160".toList),
    ("client_id".toList, utf8 ['c'])]⟩

-- A queue with one message, which expires at 160.
def oneQueued : BackupEnvelope where
  dumpKind := .whole
  app := .none
  exportedAt := .none
  clients := .empty
  adminAcls := .empty
  kv := .empty
  queues := ⟨[(.text ['t'], [⟨.text "1-1".toList, ⟨restoredEntry.fields.map fun field =>
    (.text field.1, field.2), by decide⟩⟩])], by decide⟩
  activityLog := none
  deviceToApp := .empty

end Meeting

end Stra2us.Queue
