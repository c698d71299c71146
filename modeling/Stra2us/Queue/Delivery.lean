import Stra2us.Queue.Consume
import Stra2us.Server.Api

namespace Stra2us.Queue

open Foundation Server

-- What can happen on one topic: a publish, a consume, or time going by.
inductive Act
  | publish (context : Context) (request : Request) (ttl : Int)
  | consume (context : Context) (request : Request) (envelope : Bool)
  | tick (clock : Int) (redisMs : UInt64)

structure Record where
  before : World
  act : Act
  result : Option (Except Exn Response)
  after : World

-- An entry that a consumer's cursor went past, with the second and the mode of the
-- request that moved it.
structure Passing where
  entry : Entry
  time : Int
  envelope : Bool

def Passing.inTime (p : Passing) : Bool :=
  live p.time p.entry

def Passing.body (p : Passing) : Option Bytes :=
  (messageBody p.envelope p.entry).toOption

section Runs

variable (hmac : Hmac) (topic : Text)

def entries (w : World) : List Entry :=
  (w.store.stream (queueKey topic)).entries

def cursorOf (consumer : Text) (w : World) : StreamId :=
  (position (w.store.get (cursorKey consumer topic))).getD .zero

-- The entries the consumer is done with.
def gone (consumer : Text) (w : World) : List Entry :=
  (entries topic w).filter fun e => e.id ≤ cursorOf topic consumer w

-- Each turn of the polling loop goes past an entry at least, so these are enough.
def turnsFor (w : World) : Nat :=
  (entries topic w).length + 1

def recordOf (w : World) (act : Act) : Record :=
  match act with
  | .publish context request ttl =>
      let out := (publishMessage hmac context topic request ttl).runOn w
      ⟨w, act, some out.1, out.2⟩
  | .consume context request envelope =>
      let out :=
        (consumeMessage hmac context topic request envelope (turnsFor topic w)).runOn w
      ⟨w, act, some out.1, out.2⟩
  | .tick clock redisMs => ⟨w, act, none, { w with clock := clock, redisMs := redisMs }⟩

def history : World → List Act → List Record
  | _, [] => []
  | w, act :: rest => recordOf hmac topic w act :: history (recordOf hmac topic w act).after rest

def finalWorld : World → List Act → World
  | w, [] => w
  | w, act :: rest => finalWorld (recordOf hmac topic w act).after rest

end Runs

namespace Record

variable (topic consumer : Text)

-- The body of an answer that hands a message to the consumer.
def delivered (r : Record) : Option Bytes :=
  match r.act, r.result with
  | .consume context _ _, some (.ok response) =>
      if context.clientId = consumer ∧ response.status = 200 then some response.body else none
  | _, _ => none

def passings (r : Record) : List Passing :=
  match r.act with
  | .consume context _ envelope =>
      if context.clientId = consumer then
        ((entries topic r.after).filter fun e =>
          cursorOf topic consumer r.before < e.id ∧ e.id ≤ cursorOf topic consumer r.after).map
            fun e => ⟨e, r.before.clock, envelope⟩
      else []
  | _ => []

-- The fields a publish that was answered put into the stream.
def published (r : Record) : Option (List (Text × Bytes)) :=
  match r.act with
  | .publish context request ttl =>
      (publishedFields context topic request ttl r.before.clock).toOption
  | _ => none

-- The first live entry past the cursor, if a consume in envelope mode meets one,
-- nests no deeper than an envelope has room for.
def Wrappable (r : Record) : Prop :=
  match r.act with
  | .consume context _ envelope =>
      envelope = true → checkAcl context.acl ("q/".toList ++ topic) .read = .ok () →
        ∀ e, ((entries topic r.before).filter fun e =>
          cursorOf topic context.clientId r.before < e.id).find? (live r.before.clock) = some e →
          Wraps e
  | _ => True

-- A consume the client may make is answered, and with 204 only when every entry
-- beyond the cursor has expired.
def Answered (r : Record) : Prop :=
  match r.act with
  | .consume context _ _ =>
      checkAcl context.acl ("q/".toList ++ topic) .read = .ok () →
        ∃ response, r.result = some (.ok response) ∧
          (response.status = 200 ∨ response.status = 204 ∧
            ∀ e ∈ entries topic r.before, cursorOf topic context.clientId r.before < e.id →
              expOf e < r.before.clock)
  | _ => True

end Record

-- Nothing has been published on the topic yet and nobody has read from it.
structure Fresh (topic : Text) (w : World) : Prop where
  stream : w.store.stream? (queueKey topic) = none
  cursor : ∀ consumer, w.store.get (cursorKey consumer topic) = none

-- Entries come from publishes, and cursors stand at ids that were handed out.
structure Steady (topic : Text) (w : World) : Prop where
  sound : ∀ e ∈ entries topic w, Sound e
  ms_lt : (w.store.stream (queueKey topic)).last.ms < 2 ^ 64
  cursor : ∀ consumer, ∃ id, position (w.store.get (cursorKey consumer topic)) = some id ∧
    id ≤ (w.store.stream (queueKey topic)).last

-- What one step adds to the books of a consumer and of the stream.
structure Record.Exact (topic : Text) (r : Record) : Prop where
  gone : ∀ consumer, gone topic consumer r.after =
    gone topic consumer r.before ++ (r.passings topic consumer).map Passing.entry
  delivered : ∀ consumer, (r.delivered consumer).toList.map some =
    ((r.passings topic consumer).filter Passing.inTime).map Passing.body
  published : (entries topic r.after).map Entry.fields =
    (entries topic r.before).map Entry.fields ++ (r.published topic).toList
  answered : r.Answered topic

section Frames

variable {topic consumer other : Text} {w w' : World}

theorem cursorOf_of_position {id : StreamId}
    (h : position (w.store.get (cursorKey consumer topic)) = some id) :
    cursorOf topic consumer w = id := by
  simp [cursorOf, h]

theorem cursorOf_congr (h : w'.store.get (cursorKey consumer topic) =
      w.store.get (cursorKey consumer topic)) :
    cursorOf topic consumer w' = cursorOf topic consumer w := by
  rw [cursorOf, cursorOf, h]

theorem entries_storeCursor (cursor : Text) (passed : List Entry) (w : World) :
    entries topic (storeCursor cursor passed w) = entries topic w := by
  rw [entries, storeCursor_stream, entries]

theorem position_storeCursor_self (passed : List Entry) (w : World) :
    position ((storeCursor (cursorKey consumer topic) passed w).store.get
        (cursorKey consumer topic)) =
      match passed.getLast? with
      | some e => some e.id
      | none => position (w.store.get (cursorKey consumer topic)) := by
  unfold storeCursor
  cases passed.getLast? with
  | none => rfl
  | some e => simp

theorem filter_between_self (id : StreamId) (l : List Entry) :
    l.filter (fun e => id < e.id ∧ e.id ≤ id) = [] := by
  apply List.filter_eq_nil_iff.mpr
  intro e _
  simp

end Frames

section Steps

variable (hmac : Hmac) {topic : Text} {w : World}

-- A record in which the store stayed as it was.
theorem Record.exact_of_still {r : Record} (hstore : r.after.store = r.before.store)
    (hdelivered : ∀ consumer, r.delivered consumer = none)
    (hpublished : r.published topic = none) (hanswered : r.Answered topic) :
    r.Exact topic := by
  have hentries : entries topic r.after = entries topic r.before := by
    rw [entries, entries, hstore]
  have hcursor : ∀ consumer, cursorOf topic consumer r.after = cursorOf topic consumer r.before :=
    fun consumer => cursorOf_congr (by rw [hstore])
  have hpassings : ∀ consumer, r.passings topic consumer = [] := by
    intro consumer
    unfold passings
    split
    · split
      · rw [hcursor, filter_between_self]
        rfl
      · rfl
    · rfl
  refine ⟨?_, ?_, ?_, hanswered⟩
  · intro consumer
    rw [hpassings, Queue.gone, Queue.gone, hentries, hcursor]
    simp
  · intro consumer
    rw [hpassings, hdelivered]
    rfl
  · rw [hpublished, hentries]
    simp

theorem Steady.of_still {w' : World} (h : Steady topic w) (hstore : w'.store = w.store) :
    Steady topic w' := by
  refine ⟨?_, ?_, ?_⟩
  · rw [entries, hstore]
    exact h.sound
  · rw [hstore]
    exact h.ms_lt
  · rw [hstore]
    exact h.cursor

theorem Fresh.steady (h : Fresh topic w) : Steady topic w := by
  have hempty : w.store.stream (queueKey topic) = .empty := by rw [Store.stream, h.stream]; rfl
  refine ⟨?_, ?_, ?_⟩
  · intro e he
    rw [entries, hempty] at he
    cases he
  · rw [hempty]
    decide
  · intro consumer
    exact ⟨.zero, by rw [h.cursor]; rfl, StreamId.zero_le _⟩

-- A publish puts one entry at the end, beyond every cursor.
theorem publish_step (h : Steady topic w) (context : Context) (request : Request) (ttl : Int) :
    (recordOf hmac topic w (.publish context request ttl)).Exact topic ∧
      Steady topic (recordOf hmac topic w (.publish context request ttl)).after := by
  have hrun := publishMessage_runOn hmac context topic request ttl w
  cases hfields : publishedFields context topic request ttl w.clock with
  | error exn =>
      rw [hfields] at hrun
      have hrecord : recordOf hmac topic w (.publish context request ttl) =
          ⟨w, .publish context request ttl, some (.error exn), w⟩ := by
        simp only [recordOf, hrun]
      rw [hrecord]
      refine ⟨Record.exact_of_still rfl (fun _ => rfl) ?_ trivial, h⟩
      simp only [Record.published, hfields, Except.toOption]
  | ok fields =>
      rw [hfields] at hrun
      obtain ⟨response, hrun⟩ := hrun
      have hrecord : recordOf hmac topic w (.publish context request ttl) =
          ⟨w, .publish context request ttl, some (.ok response), appendEntry topic fields w⟩ := by
        simp only [recordOf, hrun]
      rw [hrecord]
      set last := (w.store.stream (queueKey topic)).last with hlast
      set id := last.next w.redisMs.toNat with hid
      have hentries : entries topic (appendEntry topic fields w) =
          entries topic w ++ [⟨id, fields⟩] := by
        simp [entries, appendEntry, Store.stream_xadd_self, hid, hlast]
      have hcursor : ∀ consumer, (appendEntry topic fields w).store.get (cursorKey consumer topic) =
          w.store.get (cursorKey consumer topic) := by
        intro consumer
        simp [appendEntry]
      have hlast' : ((appendEntry topic fields w).store.stream (queueKey topic)).last = id := by
        simp [appendEntry, Store.last_expire, Store.stream_xadd_self, hid, hlast]
      have hms : id.ms < 2 ^ 64 := by
        have := w.redisMs.toNat_lt
        rw [hid, StreamId.next]
        split
        · exact this
        · exact h.ms_lt
      have hlt : last < id := StreamId.lt_next _ _
      refine ⟨⟨?_, fun _ => rfl, ?_, trivial⟩, ⟨?_, ?_, ?_⟩⟩
      · intro consumer
        obtain ⟨at_, hpos, hle⟩ := h.cursor consumer
        have hbeyond : ¬ id ≤ cursorOf topic consumer w := by
          rw [cursorOf_of_position hpos]
          exact not_le.mpr (lt_of_le_of_lt hle hlt)
        change gone topic consumer (appendEntry topic fields w) = gone topic consumer w ++ []
        rw [gone, gone, hentries, cursorOf_congr (hcursor consumer), List.filter_append]
        simp [hbeyond]
      · simp only [hentries, Record.published, hfields, Except.toOption]
        simp
      · rw [hentries]
        intro e he
        rcases List.mem_append.mp he with he | he
        · exact h.sound e he
        · obtain rfl := List.mem_singleton.mp he
          exact sound_of_published hfields hms
      · rw [hlast']
        exact hms
      · intro consumer
        obtain ⟨at_, hpos, hle⟩ := h.cursor consumer
        refine ⟨at_, by rw [hcursor, hpos], ?_⟩
        rw [hlast']
        exact hle.trans hlt.le

-- The entries a consume at this moment goes past, and the world it leaves.
def pending (topic consumer : Text) (w : World) : List Entry :=
  (w.store.stream (queueKey topic)).after (cursorOf topic consumer w)

def handled (topic consumer : Text) (w : World) : List Entry :=
  Feed.passed (live w.clock) (pending topic consumer w)

def moved (topic consumer : Text) (w : World) : World :=
  storeCursor (cursorKey consumer topic) (handled topic consumer w) w

-- Between the old cursor and the new one lie just the entries the loop went past.
theorem cursor_moved (h : Steady topic w) (consumer : Text) :
    ∃ id, position ((moved topic consumer w).store.get (cursorKey consumer topic)) = some id ∧
      cursorOf topic consumer w ≤ id ∧ id ≤ (w.store.stream (queueKey topic)).last ∧
      (entries topic w).filter (fun e => cursorOf topic consumer w < e.id ∧ e.id ≤ id) =
        handled topic consumer w := by
  obtain ⟨start, hstart, hstart_le⟩ := h.cursor consumer
  have hid : cursorOf topic consumer w = start := cursorOf_of_position hstart
  have hposition : position ((moved topic consumer w).store.get (cursorKey consumer topic)) = _ :=
    position_storeCursor_self (handled topic consumer w) w
  rw [hstart] at hposition
  cases hlast : (handled topic consumer w).getLast? with
  | none =>
      rw [hlast] at hposition
      refine ⟨start, hposition, hid.le, hstart_le, ?_⟩
      rw [hid, filter_between_self]
      exact (List.getLast?_eq_none_iff.mp hlast).symm
  | some e =>
      rw [hlast] at hposition
      have hsplit : handled topic consumer w ++
          Feed.remaining (live w.clock) (pending topic consumer w) = pending topic consumer w :=
        Feed.passed_append_remaining _ _
      have he : e ∈ pending topic consumer w := by
        rw [← hsplit]
        exact List.mem_append_left _ (List.mem_of_getLast? hlast)
      obtain ⟨hmem, hlt⟩ := Stream.mem_after.mp he
      refine ⟨e.id, hposition, hlt.le, Stream.le_last _ e hmem, ?_⟩
      have hsorted : (pending topic consumer w).Pairwise fun a b => a.id < b.id :=
        Stream.after_sorted _ _
      rw [← hsplit] at hsorted
      calc
        _ = (pending topic consumer w).filter (fun x => x.id ≤ e.id) := by
          rw [pending, Stream.after, List.filter_filter]
          apply List.filter_congr
          intro x _
          simp [and_comm]
        _ = handled topic consumer w := by
          conv_lhs => rw [← hsplit]
          exact Stream.filter_le_last hsorted hlast

theorem entries_moved (consumer : Text) (w : World) :
    entries topic (moved topic consumer w) = entries topic w :=
  entries_storeCursor _ _ _

theorem get_moved_of_ne {consumer other : Text} (h : other ≠ consumer) (w : World) :
    (moved topic consumer w).store.get (cursorKey other topic) =
      w.store.get (cursorKey other topic) := by
  have hne : cursorKey other topic ≠ cursorKey consumer topic :=
    fun heq => h (cursorKey_injective topic heq)
  unfold moved storeCursor
  cases (handled topic consumer w).getLast? with
  | none => rfl
  | some e => exact Store.get_set_of_ne _ hne _

theorem Steady.moved (h : Steady topic w) (consumer : Text) :
    Steady topic (moved topic consumer w) := by
  refine ⟨?_, ?_, ?_⟩
  · rw [entries_moved]
    exact h.sound
  · rw [Queue.moved, storeCursor_stream]
    exact h.ms_lt
  · intro other
    rw [Queue.moved, storeCursor_stream]
    by_cases hc : other = consumer
    · subst hc
      obtain ⟨id, hposition, -, hle, -⟩ := cursor_moved h other
      exact ⟨id, hposition, hle⟩
    · obtain ⟨id, hposition, hle⟩ := h.cursor other
      have hget : (Queue.moved topic consumer w).store.get (cursorKey other topic) = _ :=
        get_moved_of_ne hc w
      refine ⟨id, ?_, hle⟩
      rw [← hposition, ← hget]
      rfl

-- A consume that answered with what the loop found keeps the books.
theorem consume_exact {context : Context} {request : Request} {envelope : Bool}
    {response : Response} (h : Steady topic w)
    (hanswer : match (pending topic context.clientId w).find? (live w.clock) with
      | none => response.status = 204
      | some entry => response.status = 200 ∧ messageBody envelope entry = .ok response.body) :
    Record.Exact topic ⟨w, .consume context request envelope, some (.ok response),
      moved topic context.clientId w⟩ := by
  obtain ⟨id, hposition, hle, -, hbetween⟩ := cursor_moved h context.clientId
  have hcursor := cursorOf_of_position hposition
  set r : Record := ⟨w, .consume context request envelope, some (.ok response),
    moved topic context.clientId w⟩ with hr
  have hpassings : r.passings topic context.clientId =
      (handled topic context.clientId w).map fun e => ⟨e, w.clock, envelope⟩ := by
    simp only [hr, Record.passings, ite_true, entries_moved, hcursor, hbetween]
  have hothers : ∀ other, other ≠ context.clientId → r.passings topic other = [] := by
    intro other hne
    simp only [hr, Record.passings, if_neg (Ne.symm hne)]
  refine ⟨?_, ?_, ?_, ?_⟩
  · intro consumer
    by_cases hc : consumer = context.clientId
    · subst hc
      have hsplit := Stream.filter_le_append (w.store.stream (queueKey topic)).sorted hle
      have hafter : gone topic context.clientId r.after =
          (entries topic w).filter fun e => e.id ≤ id := by
        rw [gone, entries_moved, hcursor]
      rw [hafter, hpassings, List.map_map, entries, hsplit]
      change _ ++ (entries topic w).filter _ = _
      rw [hbetween]
      simp [Function.comp_def, gone, entries, hr]
    · have hsame : cursorOf topic consumer r.after = cursorOf topic consumer w :=
        cursorOf_congr (get_moved_of_ne hc w)
      rw [hothers consumer hc, gone, gone, hsame, entries_moved]
      simp [hr]
  · intro consumer
    by_cases hc : consumer = context.clientId
    · subst hc
      have hkept : (r.passings topic context.clientId).filter Passing.inTime =
          ((pending topic context.clientId w).find? (live w.clock)).toList.map
            fun e => ⟨e, w.clock, envelope⟩ := by
        rw [hpassings, List.filter_map, ← Feed.filter_passed]
        rfl
      rw [hkept]
      cases hfind : (pending topic context.clientId w).find? (live w.clock) with
      | none =>
          rw [hfind] at hanswer
          simp [Record.delivered, hr, hanswer]
      | some entry =>
          rw [hfind] at hanswer
          simp [Record.delivered, hr, hanswer, Passing.body, Except.toOption]
    · rw [hothers consumer hc]
      simp [Record.delivered, hr, Ne.symm hc]
  · simp [Record.published, hr, entries_moved]
  · intro _
    refine ⟨response, rfl, ?_⟩
    cases hfind : (pending topic context.clientId w).find? (live w.clock) with
    | none =>
        rw [hfind] at hanswer
        refine Or.inr ⟨hanswer, ?_⟩
        intro e he hlt
        have hdead := List.find?_eq_none.mp hfind e (Stream.mem_after.mpr ⟨he, hlt⟩)
        simpa [live] using hdead
    | some entry =>
        rw [hfind] at hanswer
        exact Or.inl hanswer.1

theorem consume_step (h : Steady topic w) (context : Context) (request : Request)
    (envelope : Bool)
    (hwrap : (recordOf hmac topic w (.consume context request envelope)).Wrappable topic) :
    (recordOf hmac topic w (.consume context request envelope)).Exact topic ∧
      Steady topic (recordOf hmac topic w (.consume context request envelope)).after := by
  cases hacl : checkAcl context.acl ("q/".toList ++ topic) .read with
  | error exn =>
      have hrecord : recordOf hmac topic w (.consume context request envelope) =
          ⟨w, .consume context request envelope, some (.error exn), w⟩ := by
        simp only [recordOf, consumeMessage_denied hmac hacl]
      rw [hrecord]
      refine ⟨Record.exact_of_still rfl (fun _ => rfl) rfl ?_, h⟩
      intro hallowed
      rw [hacl] at hallowed
      cases hallowed
  | ok _ =>
      obtain ⟨id, hposition, -⟩ := h.cursor context.clientId
      have hid := cursorOf_of_position hposition
      have hsound : ∀ e ∈ pending topic context.clientId w, Sound e := by
        intro e he
        exact h.sound e (Stream.mem_after.mp he).1
      have hfuel : (pending topic context.clientId w).length < turnsFor topic w :=
        Nat.lt_succ_of_le (List.length_filter_le _ _)
      have hbody : ∀ entry, (pending topic context.clientId w).find? (live w.clock) = some entry →
          ∃ body, messageBody envelope entry = .ok body := by
        intro entry hfind
        have hs := hsound entry (List.mem_of_find?_eq_some hfind)
        cases envelope with
        | false =>
            obtain ⟨body, hb, -⟩ := messageBody_plain hs
            exact ⟨body, hb⟩
        | true =>
            have hwraps : Wraps entry := hwrap rfl hacl entry hfind
            exact (messageBody_envelope hs hwraps.publisher).mpr hwraps.nests
      have hpending : (w.store.stream (queueKey topic)).after id =
          pending topic context.clientId w := by rw [← hid]; rfl
      obtain ⟨response, hrun, hanswer⟩ :
          ∃ response, (consumeMessage hmac context topic request envelope (turnsFor topic w)).runOn
            w = _ ∧ _ :=
        consumeMessage_runOn hmac hacl hposition hpending hsound hfuel hbody
      have hrecord : recordOf hmac topic w (.consume context request envelope) =
          ⟨w, .consume context request envelope, some (.ok response),
            moved topic context.clientId w⟩ := by
        simp only [recordOf, hrun]
        rfl
      rw [hrecord]
      exact ⟨consume_exact h hanswer, h.moved context.clientId⟩

theorem recordOf_step (h : Steady topic w) (act : Act)
    (hwrap : (recordOf hmac topic w act).Wrappable topic) :
    (recordOf hmac topic w act).Exact topic ∧ Steady topic (recordOf hmac topic w act).after := by
  cases act with
  | publish context request ttl => exact publish_step hmac h context request ttl
  | consume context request envelope => exact consume_step hmac h context request envelope hwrap
  | tick clock redisMs =>
      exact ⟨Record.exact_of_still rfl (fun _ => rfl) rfl trivial, h.of_still rfl⟩

theorem filterMap_cons_toList {α β : Type} (f : α → Option β) (a : α) (rest : List α) :
    (a :: rest).filterMap f = (f a).toList ++ rest.filterMap f := by
  cases h : f a <;> simp [h]

-- The books over a whole run.
theorem history_exact (h : Steady topic w) (acts : List Act)
    (hwrap : ∀ r ∈ history hmac topic w acts, r.Wrappable topic) :
    (∀ consumer, gone topic consumer (finalWorld hmac topic w acts) = gone topic consumer w ++
      ((history hmac topic w acts).flatMap (·.passings topic consumer)).map Passing.entry) ∧
    (∀ consumer, ((history hmac topic w acts).filterMap (·.delivered consumer)).map some =
      (((history hmac topic w acts).flatMap (·.passings topic consumer)).filter
        Passing.inTime).map Passing.body) ∧
    (entries topic (finalWorld hmac topic w acts)).map Entry.fields =
      (entries topic w).map Entry.fields ++
        (history hmac topic w acts).filterMap (·.published topic) ∧
    ∀ r ∈ history hmac topic w acts, r.Answered topic := by
  induction acts generalizing w with
  | nil => simp [history, finalWorld]
  | cons act rest ih =>
      obtain ⟨hexact, hsteady⟩ := recordOf_step hmac h act (hwrap _ (by simp [history]))
      obtain ⟨hgone, hdelivered, hpublished, hanswered⟩ :=
        ih hsteady fun r hr => hwrap r (List.mem_cons_of_mem _ hr)
      have hbefore : (recordOf hmac topic w act).before = w := by cases act <;> rfl
      refine ⟨?_, ?_, ?_, ?_⟩
      · intro consumer
        have hstep := hexact.gone consumer
        rw [hbefore] at hstep
        simp only [finalWorld, history, hgone, hstep, List.flatMap_cons, List.map_append,
          List.append_assoc]
      · intro consumer
        have hstep := hexact.delivered consumer
        simp only [history, List.flatMap_cons, List.filter_append, List.map_append, ← hstep,
          ← hdelivered consumer, filterMap_cons_toList]
      · have hstep := hexact.published
        rw [hbefore] at hstep
        simp only [finalWorld, history, hpublished, hstep, List.append_assoc,
          filterMap_cons_toList]
      · intro r hr
        rcases List.mem_cons.mp hr with rfl | hr
        · exact hexact.answered
        · exact hanswered r hr

-- Consumers receive what they went past in time, in the order of the stream, and have
-- gone past exactly what lies up to their cursor, whatever fills the batches, as long as
-- no envelope is asked for around a payload that leaves no room for one.
theorem deliveries_exact {w : World} (h : Fresh topic w) (acts : List Act)
    (hwrap : ∀ r ∈ history hmac topic w acts, r.Wrappable topic) (consumer : Text) :
    ((history hmac topic w acts).filterMap (·.delivered consumer)).map some =
      (((history hmac topic w acts).flatMap (·.passings topic consumer)).filter
        Passing.inTime).map Passing.body ∧
    ((history hmac topic w acts).flatMap (·.passings topic consumer)).map Passing.entry =
      (entries topic (finalWorld hmac topic w acts)).filter (fun e =>
        e.id ≤ cursorOf topic consumer (finalWorld hmac topic w acts)) ∧
    (entries topic (finalWorld hmac topic w acts)).map Entry.fields =
      (history hmac topic w acts).filterMap (·.published topic) ∧
    ∀ r ∈ history hmac topic w acts, r.Answered topic := by
  obtain ⟨hgone, hdelivered, hpublished, hanswered⟩ := history_exact hmac h.steady acts hwrap
  have hempty : entries topic w = [] := by
    rw [entries, Store.stream, h.stream]
    rfl
  refine ⟨hdelivered consumer, ?_, ?_, hanswered⟩
  · have hrun := hgone consumer
    rw [gone, gone, hempty] at hrun
    exact hrun.symm
  · rw [hpublished, hempty]
    rfl

end Steps

def atNoon : World := ⟨.empty, 100, 7⟩

theorem fresh_atNoon (topic : Text) : Fresh topic atNoon :=
  ⟨rfl, fun _ => rfl⟩

def publishOf (body : Bytes) (ttl : Int) : Act :=
  .publish .small ⟨"POST".toList, "/q/t".toList, [], body⟩ ttl

def consumeOf (envelope : Bool) : Act :=
  .consume .small ⟨"GET".toList, "/q/t".toList, [], []⟩ envelope

-- The first message has expired by the time it is looked at, the second has not.
def oneExpires : List Act :=
  [publishOf [1] 5, publishOf [2] 60, .tick 110 8, consumeOf true, consumeOf false]

set_option maxRecDepth 10000 in
theorem deliveries_of_oneExpires :
    let runs := history Site.small.hmac ['t'] atNoon oneExpires
    (runs.filterMap (·.delivered ['c'])).length = 1 ∧
    (runs.flatMap (·.passings ['t'] ['c'])).map Passing.inTime = [false, true] ∧
    (runs.filterMap (·.delivered ['c'])).map some =
      ((runs.flatMap (·.passings ['t'] ['c'])).filter Passing.inTime).map Passing.body := by
  refine ⟨by decide, by decide, ?_⟩
  refine (deliveries_exact Site.small.hmac (fresh_atNoon ['t']) oneExpires ?_ ['c']).1
  intro r hr
  simp only [oneExpires, history, List.mem_cons, List.not_mem_nil, or_false] at hr
  rcases hr with rfl | rfl | rfl | rfl | rfl
  · trivial
  · trivial
  · trivial
  · intro _ _ e he
    obtain rfl := Option.some.inj (he.symm.trans (by rfl : _ = some ⟨⟨7, 1⟩,
      [("payload".toList, [2]), ("exp".toList, utf8 "160".toList),
        ("client_id".toList, utf8 ['c'])]⟩))
    exact ⟨by decide, by decide⟩
  · intro henvelope
    cases henvelope

-- A payload that is as deep as a payload may be to be packed again: 511 lists around nil.
def deepPayload : Bytes :=
  List.replicate 511 0x91 ++ [0xc0]

def deepThenRetry : List Act :=
  [publishOf deepPayload 60, consumeOf true, consumeOf false]

-- The envelope cannot be packed once the cursor is already past the message.
set_option maxRecDepth 100000 in
theorem envelope_loses_message :
    let runs := history Site.small.hmac ['t'] atNoon deepThenRetry
    Fresh ['t'] atNoon ∧ (runs.flatMap (·.passings ['t'] ['c'])).map Passing.inTime = [true] ∧
    (runs.filterMap (·.delivered ['c'])).map some ≠
      ((runs.flatMap (·.passings ['t'] ['c'])).filter Passing.inTime).map Passing.body := by
  refine ⟨fresh_atNoon ['t'], ?_, ?_⟩
  · decide +kernel
  · decide +kernel

end Stra2us.Queue
