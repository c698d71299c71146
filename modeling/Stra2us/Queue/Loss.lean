import Stra2us.Device.Handlers
import Stra2us.Queue.Walk

namespace Stra2us.Queue

open Foundation Server Device

variable {hmac : Hmac} {topic consumer : Text} {w : World} {id : StreamId} {entry bad : Entry}

section Gone

-- Some run of requests from here on hands the entry to the consumer.
def StillDelivered (hmac : Hmac) (topic consumer : Text) (w : World) (entry : Entry) : Prop :=
  ∃ acts, ∃ r ∈ history hmac topic w acts, r.handed hmac topic = some (consumer, entry)

theorem handed_first {r : Record} (hshape : r = recordOf hmac topic r.before r.act)
    (hid : position (r.before.store.get (cursorKey consumer topic)) = some id)
    (h : r.handed hmac topic = some (consumer, entry)) :
    firstLive r.before.clock ((r.before.store.stream (queueKey topic)).after id) =
        .ok (some entry) ∧ ∃ envelope body, messageBody envelope entry = .ok body := by
  obtain ⟨context, request, envelope, hact, rfl⟩ := consume_of_handed h
  rw [hshape, hact] at h
  obtain ⟨-, hfound, hbody⟩ := (handed_iff hid).mp h
  exact ⟨hfound, envelope, hbody⟩

-- What the cursor has gone past is not handed out any more.
theorem not_delivered_of_passed
    (hid : position (w.store.get (cursorKey consumer topic)) = some id) (hle : entry.id ≤ id) :
    ¬ StillDelivered hmac topic consumer w entry := by
  rintro ⟨acts, r, hr, hhanded⟩
  obtain ⟨honward, hshape⟩ := mem_history hr
  obtain ⟨id', hid', hlater⟩ := honward.cursor id hid
  obtain ⟨hfirst, -⟩ := handed_first hshape hid' hhanded
  rcases firstLive_cases r.before.clock ((r.before.store.stream (queueKey topic)).after id') with
    hnone | ⟨passed, found, rest, hsplit, -, -, hfound⟩ | ⟨passed, bad, rest, exn, -, -, -, hstuck⟩
  · rw [hnone] at hfirst
    cases hfirst
  · rw [hfound] at hfirst
    obtain rfl := Option.some.inj (Except.ok.inj hfirst)
    have hmem : found ∈ (r.before.store.stream (queueKey topic)).after id' := by
      rw [hsplit]
      simp
    exact absurd (hle.trans hlater) (not_le.mpr (Stream.mem_after.mp hmem).2)
  · rw [hstuck] at hfirst
    cases hfirst

end Gone

section Blocked

-- An entry ahead of the consumer whose expiry cannot be read.
structure Blocked (topic consumer : Text) (bad : Entry) (w : World) : Prop where
  mem : bad ∈ entries topic w
  unreadable : ∀ exp, entryExp bad ≠ .ok exp
  cursor : ∃ id, position (w.store.get (cursorKey consumer topic)) = some id ∧ id < bad.id

theorem Blocked.step (h : Blocked topic consumer bad w) (act : Act) :
    Blocked topic consumer bad (recordOf hmac topic w act).after where
  mem := by
    obtain ⟨more, hmore⟩ := @entries_step hmac topic w act
    rw [hmore]
    exact List.mem_append_left _ h.mem
  unreadable := h.unreadable
  cursor := by
    obtain ⟨id, hid, hlt⟩ := h.cursor
    obtain ⟨id', hmoved, hid'⟩ := @cursor_step hmac topic consumer w id hid act
    refine ⟨id', hid', ?_⟩
    cases hmoved with
    | inl hsame => rwa [hsame]
    | inr hpolled =>
        obtain ⟨found, hpolled⟩ := hpolled
        exact hpolled.before (Stream.mem_after.mpr ⟨h.mem, hlt⟩) (Stream.after_sorted _ _) hlt
          h.unreadable

theorem Blocked.of_mem_history (h : Blocked topic consumer bad w) {acts : List Act} {r : Record}
    (hr : r ∈ history hmac topic w acts) : Blocked topic consumer bad r.before := by
  induction acts generalizing w with
  | nil => cases hr
  | cons act rest ih =>
      rw [history] at hr
      cases List.mem_cons.mp hr with
      | inl hfirst =>
          rw [hfirst]
          cases act with
          | publish context request ttl => exact h
          | consume context request envelope => exact h
          | tick clock redisMs => exact h
      | inr hrest => exact ih (h.step act) hrest

-- Nothing behind such an entry is handed out.
theorem Blocked.not_delivered (h : Blocked topic consumer bad w) (hbehind : bad.id ≤ entry.id) :
    ¬ StillDelivered hmac topic consumer w entry := by
  rintro ⟨acts, r, hr, hhanded⟩
  have hblocked := h.of_mem_history hr
  obtain ⟨id, hid, hlt⟩ := hblocked.cursor
  obtain ⟨hfirst, -⟩ := handed_first (@mem_history hmac topic consumer w acts r hr).2 hid hhanded
  have hmem : bad ∈ (r.before.store.stream (queueKey topic)).after id :=
    Stream.mem_after.mpr ⟨hblocked.mem, hlt⟩
  have hsorted := (r.before.store.stream (queueKey topic)).after_sorted id
  rcases firstLive_cases r.before.clock ((r.before.store.stream (queueKey topic)).after id) with
    hnone | ⟨passed, found, rest, hsplit, hpassed, -, hfound⟩ |
      ⟨passed, bad', rest, exn, -, -, -, hstuck⟩
  · rw [hnone] at hfirst
    cases hfirst
  · have hpolled : Polled r.before.clock id ((r.before.store.stream (queueKey topic)).after id)
        (.ok (some found)) found.id := by
      refine .found hsplit hpassed ?_
      rw [hsplit, firstLive_append, hpassed] at hfound
      exact hfound
    rw [hfound] at hfirst
    obtain rfl := Option.some.inj (Except.ok.inj hfirst)
    exact absurd hbehind (not_le.mpr (hpolled.before hmem hsorted hlt hblocked.unreadable))
  · rw [hstuck] at hfirst
    cases hfirst

end Blocked

section Deliverable

variable {beyond : List Entry}

-- Everything ahead of the entry, itself included, tells when it expires, and it has a body.
def Deliverable (beyond : List Entry) (entry : Entry) : Prop :=
  (∀ other ∈ beyond, other.id ≤ entry.id → ∃ exp, entryExp other = .ok exp) ∧
    ∃ body, messageBody false entry = .ok body

theorem StillDelivered.step {act : Act}
    (h : StillDelivered hmac topic consumer (recordOf hmac topic w act).after entry) :
    StillDelivered hmac topic consumer w entry := by
  obtain ⟨acts, r, hr, hhanded⟩ := h
  exact ⟨act :: acts, r, List.mem_cons_of_mem _ hr, hhanded⟩

-- A body for the envelope is built around the payload.
theorem messageBody_plain_of_ok {envelope : Bool} {body : Bytes}
    (h : messageBody envelope entry = .ok body) : ∃ body, messageBody false entry = .ok body := by
  unfold messageBody at h ⊢
  cases hfield : entryField entry "payload".toList with
  | error exn =>
      rw [hfield] at h
      cases h
  | ok rawPayload => exact ⟨rawPayload, rfl⟩

-- What is live comes after what has been passed.
theorem not_passed {passed rest : List Entry} {middle : Entry} {now : Int}
    (hpassed : firstLive now passed = .ok none) (hlive : LiveAt now entry)
    (hentry : entry ∈ passed ++ middle :: rest) : entry = middle ∨ entry ∈ rest := by
  cases List.mem_append.mp hentry with
  | inl hpast => exact absurd hlive (not_live_of_passed hpassed entry hpast)
  | inr hlater => exact List.mem_cons.mp hlater

theorem behind {passed rest : List Entry} {middle : Entry}
    (hsorted : (passed ++ middle :: rest).Pairwise fun a b => a.id < b.id)
    (h : entry = middle ∨ entry ∈ rest) : middle.id ≤ entry.id := by
  cases h with
  | inl hsame => rw [hsame]
  | inr hlater =>
      exact ((List.pairwise_cons.mp (List.pairwise_append.mp hsorted).2.1).1 entry hlater).le

-- One plain consume after the other, by a client that may read everything.
theorem stillDelivered_of_deliverable {n : Nat}
    (hlength : ((w.store.stream (queueKey topic)).after id).length ≤ n)
    (hid : position (w.store.get (cursorKey consumer topic)) = some id)
    (hentry : entry ∈ (w.store.stream (queueKey topic)).after id) (hlive : LiveAt w.clock entry)
    (h : Deliverable ((w.store.stream (queueKey topic)).after id) entry) :
    StillDelivered hmac topic consumer w entry := by
  induction n generalizing w id with
  | zero =>
      rw [List.length_eq_zero_iff.mp (Nat.le_zero.mp hlength)] at hentry
      cases hentry
  | succ n ih =>
      have hacl : checkAcl (named consumer).acl ("q/".toList ++ topic) .read = .ok () :=
        Acl.allowed_wildcard (.queue topic) .read
      have hsorted := (w.store.stream (queueKey topic)).after_sorted id
      obtain ⟨hreadable, hbody⟩ := h
      rcases firstLive_cases w.clock ((w.store.stream (queueKey topic)).after id) with
        hnone | ⟨passed, first, rest, hsplit, hpassed, -, hfound⟩ |
          ⟨passed, bad, rest, exn, hsplit, hpassed, hbad, -⟩
      · exact absurd hlive (not_live_of_passed hnone entry hentry)
      · have hplace : entry = first ∨ entry ∈ rest := not_passed hpassed hlive (hsplit ▸ hentry)
        cases hplace with
        | inl hsame =>
            refine ⟨[.consume (named consumer) (request []) false], _, List.mem_cons_self, ?_⟩
            rw [hsame] at hbody ⊢
            exact (@handed_iff hmac topic w id first (named consumer) (request []) false hid).mpr
              ⟨hacl, hfound, hbody⟩
        | inr hrest =>
            -- the first live one is taken, and the rest is what lies ahead then
            obtain ⟨found, id', hpolled, hposition, -⟩ := @consumeTagged_cases hmac
              (named consumer) topic (request []) false (turnsFor topic w) w id hacl hid
                (turnsFor_enough topic w id)
            have hmoved : id' = first.id := hpolled.cursor_of_found hfound
            have hahead : ((recordOf hmac topic w (.consume (named consumer) (request [])
                false)).after.store.stream (queueKey topic)).after id' = rest := by
              unfold Stream.after
              rw [hmoved]
              change List.filter _ (entries topic _) = _
              rw [entries_consume]
              exact Stream.after_of_split hsplit
            refine @StillDelivered.step hmac topic consumer w entry
              (.consume (named consumer) (request []) false) (@ih _ id' ?_ ?_ ?_ ?_ ?_)
            · rw [hsplit, List.length_append, List.length_cons] at hlength
              rw [hahead]
              omega
            · change position (((consumeMessage hmac (named consumer) topic (request []) false
                (turnsFor topic w)).runOn w).2.store.get _) = _
              rw [consumeMessage_tagged]
              exact hposition
            · rw [hahead]
              exact hrest
            · rw [clock_consume]
              exact hlive
            · rw [hahead]
              refine ⟨fun other hother hle => hreadable other ?_ hle, hbody⟩
              rw [hsplit]
              exact List.mem_append_right _ (List.mem_cons_of_mem _ hother)
      · have hbehind := behind (hsplit ▸ hsorted) (not_passed hpassed hlive (hsplit ▸ hentry))
        have hmem : bad ∈ (w.store.stream (queueKey topic)).after id := by
          rw [hsplit]
          simp
        obtain ⟨exp, hexp⟩ := hreadable bad hmem hbehind
        exact absurd hexp (hbad exp)

end Deliverable

section Loss

variable {context : Context} {request : Request} {envelope : Bool}

-- If the consume raises, what was live beyond the cursor can still be had.
def LosesNothing (hmac : Hmac) (topic : Text) (context : Context) (request : Request)
    (envelope : Bool) (w : World) : Prop :=
  (∃ exn, (recordOf hmac topic w (.consume context request envelope)).result =
      some (.error exn)) →
    ∀ entry ∈ entries topic w, cursorOf topic context.clientId w < entry.id →
      LiveAt w.clock entry → StillDelivered hmac topic context.clientId
        (recordOf hmac topic w (.consume context request envelope)).after entry

theorem raises_iff (hacl : checkAcl context.acl ("q/".toList ++ topic) .read = .ok ())
    (hid : position (w.store.get (cursorKey context.clientId topic)) = some id) :
    (∃ exn, (recordOf hmac topic w (.consume context request envelope)).result =
        some (.error exn)) ↔
      ¬ ScanFits envelope w.clock ((w.store.stream (queueKey topic)).after id) := by
  obtain ⟨found, id', hpolled, -, -, herror⟩ := @consumeTagged_cases hmac context topic
    request envelope (turnsFor topic w) w id hacl hid (turnsFor_enough topic w id)
  have hresult : (∃ exn, (recordOf hmac topic w (.consume context request envelope)).result =
      some (.error exn)) ↔ ∃ exn, ((consumeTagged hmac context topic request envelope
        (turnsFor topic w)).runOn w).1 = .error exn := by
    unfold recordOf
    dsimp only
    rw [consumeMessage_tagged]
    cases ((consumeTagged hmac context topic request envelope (turnsFor topic w)).runOn w).1 with
    | ok out => simp [Except.map]
    | error exn => simp [Except.map]
  rw [hresult, herror, hpolled.eq_firstLive]
  unfold ScanFits
  cases firstLive w.clock ((w.store.stream (queueKey topic)).after id) with
  | error exn => simp
  | ok message =>
      cases message with
      | none => simp
      | some entry =>
          cases hbody : messageBody envelope entry with
          | error exn => simp [hbody]
          | ok body => simp [hbody]

-- The cursor is past what could not be handed out, and short of what could not be read.
theorem lost_of_raises (hacl : checkAcl context.acl ("q/".toList ++ topic) .read = .ok ())
    (hid : position (w.store.get (cursorKey context.clientId topic)) = some id)
    (hlive : ∃ entry ∈ (w.store.stream (queueKey topic)).after id, LiveAt w.clock entry) :
    ∃ entry ∈ (w.store.stream (queueKey topic)).after id, LiveAt w.clock entry ∧
      ¬ StillDelivered hmac topic context.clientId
        (recordOf hmac topic w (.consume context request envelope)).after entry := by
  obtain ⟨found, id', hpolled, hposition, -⟩ := @consumeTagged_cases hmac context topic
    request envelope (turnsFor topic w) w id hacl hid (turnsFor_enough topic w id)
  have hafter : position ((recordOf hmac topic w
      (.consume context request envelope)).after.store.get (cursorKey context.clientId topic)) =
        some id' := by
    unfold recordOf
    dsimp only
    rw [consumeMessage_tagged]
    exact hposition
  rcases firstLive_cases w.clock ((w.store.stream (queueKey topic)).after id) with
    hnone | ⟨passed, entry, rest, hsplit, hpassed, hentry, hfound⟩ |
      ⟨passed, bad, rest, exn, hsplit, hpassed, hbad, -⟩
  · obtain ⟨entry, hentry, hlive⟩ := hlive
    exact absurd hlive (not_live_of_passed hnone entry hentry)
  · refine ⟨entry, by rw [hsplit]; simp, hentry, ?_⟩
    rw [hpolled.cursor_of_found hfound] at hafter
    exact not_delivered_of_passed hafter (le_refl _)
  · obtain ⟨entry, hentry, hlive⟩ := hlive
    have hmem : bad ∈ (w.store.stream (queueKey topic)).after id := by
      rw [hsplit]
      simp
    obtain ⟨hin, hlt⟩ := Stream.mem_after.mp hmem
    have hsorted := (w.store.stream (queueKey topic)).after_sorted id
    have hblocked : Blocked topic context.clientId bad
        (recordOf hmac topic w (.consume context request envelope)).after := by
      refine ⟨?_, hbad, id', hafter, hpolled.before hmem hsorted hlt hbad⟩
      rw [entries_consume]
      exact hin
    refine ⟨entry, hentry, hlive, hblocked.not_delivered ?_⟩
    exact behind (hsplit ▸ hsorted) (not_passed hpassed hlive (hsplit ▸ hentry))

-- What can still be had is what can be read up to, and has a payload.
theorem deliverable_of_stillDelivered
    (hid : position (w.store.get (cursorKey consumer topic)) = some id)
    (h : StillDelivered hmac topic consumer w entry) :
    Deliverable ((w.store.stream (queueKey topic)).after id) entry := by
  constructor
  · intro other hother hle
    by_contra hunreadable
    rw [not_exists] at hunreadable
    obtain ⟨hin, hlt⟩ := Stream.mem_after.mp hother
    have hblocked : Blocked topic consumer other w := ⟨hin, hunreadable, id, hid, hlt⟩
    exact hblocked.not_delivered hle h
  · obtain ⟨acts, r, hr, hhanded⟩ := h
    obtain ⟨honward, hshape⟩ := @mem_history hmac topic consumer w acts r hr
    obtain ⟨id', hid', -⟩ := honward.cursor id hid
    obtain ⟨-, envelope, body, hbody⟩ := handed_first hshape hid' hhanded
    exact messageBody_plain_of_ok hbody

end Loss

section Meeting

def afterPublish (body : Bytes) : World :=
  finalWorld Site.small.hmac ['t'] atNoon [publishOf body 60]

def publishedEntry (body : Bytes) : Entry :=
  ⟨⟨7, 0⟩, [("payload".toList, body), ("exp".toList, utf8 "160".toList),
    ("client_id".toList, utf8 ['c'])]⟩

def poll : Request := ⟨"GET".toList, "/q/t".toList, [], []⟩

end Meeting

end Stra2us.Queue
