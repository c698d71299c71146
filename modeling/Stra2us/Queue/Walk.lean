import Stra2us.Queue.Delivery
import Stra2us.Queue.Isolation
import Stra2us.Queue.Poll

namespace Stra2us.Queue

open Foundation Server

section Polls

variable {now : Int} {id id' : StreamId} {beyond : List Entry} {found : Except Exn (Option Entry)}

theorem Polled.eq_firstLive (h : Polled now id beyond found id') : found = firstLive now beyond := by
  cases h with
  | found hsplit hpassed hlive => rw [hsplit, firstLive_append, hpassed, hlive]
  | nothing hpassed => rw [hpassed]
  | stuck hsplit hpassed hstuck => rw [hsplit, firstLive_append, hpassed, hstuck]

theorem Polled.cursor_of_found (h : Polled now id beyond found id') {entry : Entry}
    (hfound : firstLive now beyond = .ok (some entry)) : id' = entry.id := by
  have hsame := h.eq_firstLive
  rw [hfound] at hsame
  rw [hsame] at h
  cases h with
  | found => rfl

theorem lastIn_cases (id : StreamId) (passed : List Entry) :
    lastIn id passed = id ∨ ∃ entry ∈ passed, lastIn id passed = entry.id := by
  unfold lastIn
  cases hlast : passed.getLast? with
  | none => exact .inl rfl
  | some entry => exact .inr ⟨entry, List.mem_of_getLast? hlast, rfl⟩

-- The cursor does not go back.
theorem Polled.le (h : Polled now id beyond found id') (hbeyond : ∀ entry ∈ beyond, id < entry.id) :
    id ≤ id' := by
  have hlast : ∀ passed, (∀ entry ∈ passed, entry ∈ beyond) → id ≤ lastIn id passed := by
    intro passed hpassed
    cases lastIn_cases id passed with
    | inl hsame => rw [hsame]
    | inr hmem =>
        obtain ⟨entry, hentry, hsame⟩ := hmem
        rw [hsame]
        exact (hbeyond entry (hpassed entry hentry)).le
  cases h with
  | @found passed rest entry hsplit hpassed hlive =>
      exact (hbeyond entry (by rw [hsplit]; simp)).le
  | nothing hpassed => exact hlast beyond fun _ h => h
  | @stuck passed rest exn hsplit hpassed hstuck =>
      exact hlast passed fun entry hentry => by rw [hsplit]; exact List.mem_append_left _ hentry

-- An entry whose time has not come.
def LiveAt (now : Int) (entry : Entry) : Prop :=
  ∃ exp, entryExp entry = .ok exp ∧ now ≤ exp

-- Everything a search can come to.
theorem firstLive_cases (now : Int) (entries : List Entry) :
    firstLive now entries = .ok none ∨
      (∃ passed entry rest, entries = passed ++ entry :: rest ∧ firstLive now passed = .ok none ∧
        LiveAt now entry ∧ firstLive now entries = .ok (some entry)) ∨
      ∃ passed bad rest exn, entries = passed ++ bad :: rest ∧ firstLive now passed = .ok none ∧
        (∀ exp, entryExp bad ≠ .ok exp) ∧ firstLive now entries = .error exn := by
  induction entries with
  | nil => exact .inl rfl
  | cons first rest ih =>
      cases hexp : entryExp first with
      | error exn =>
          have hbad : ∀ exp, entryExp first ≠ .ok exp := by
            intro exp h
            rw [hexp] at h
            cases h
          exact .inr (.inr ⟨[], first, rest, exn, rfl, rfl, hbad, firstLive_of_error hexp rest⟩)
      | ok exp =>
          by_cases hle : now ≤ exp
          · refine .inr (.inl ⟨[], first, rest, rfl, rfl, ⟨exp, hexp, hle⟩, ?_⟩)
            rw [firstLive_of_ok hexp, if_pos hle]
          · have hskip : ∀ more, firstLive now (first :: more) = firstLive now more := by
              intro more
              rw [firstLive_of_ok hexp, if_neg hle]
            rw [hskip]
            rcases ih with hnone | ⟨passed, entry, others, rfl, hpassed, hlive, hfound⟩ |
              ⟨passed, bad, others, exn, rfl, hpassed, hbad, hstuck⟩
            · exact .inl hnone
            · refine .inr (.inl ⟨first :: passed, entry, others, rfl, ?_, hlive, hfound⟩)
              rw [hskip, hpassed]
            · refine .inr (.inr ⟨first :: passed, bad, others, exn, rfl, ?_, hbad, hstuck⟩)
              rw [hskip, hpassed]

theorem not_live_of_passed {passed : List Entry} (h : firstLive now passed = .ok none) :
    ∀ entry ∈ passed, ¬ LiveAt now entry := by
  induction passed with
  | nil => simp
  | cons first rest ih =>
      cases hexp : entryExp first with
      | error exn =>
          rw [firstLive_of_error hexp] at h
          cases h
      | ok exp =>
          rw [firstLive_of_ok hexp] at h
          by_cases hle : now ≤ exp
          · rw [if_pos hle] at h
            cases h
          · rw [if_neg hle] at h
            intro entry hentry
            cases List.mem_cons.mp hentry with
            | inl hsame =>
                rintro ⟨exp', hexp', hle'⟩
                rw [hsame, hexp] at hexp'
                obtain rfl := Except.ok.inj hexp'
                exact hle hle'
            | inr hrest => exact ih h entry hrest

theorem readable_of_passed {passed : List Entry} (h : firstLive now passed = .ok none) :
    ∀ entry ∈ passed, ∃ exp, entryExp entry = .ok exp := by
  induction passed with
  | nil => simp
  | cons first rest ih =>
      cases hexp : entryExp first with
      | error exn =>
          rw [firstLive_of_error hexp] at h
          cases h
      | ok exp =>
          rw [firstLive_of_ok hexp] at h
          by_cases hle : now ≤ exp
          · rw [if_pos hle] at h
            cases h
          · rw [if_neg hle] at h
            intro entry hentry
            cases List.mem_cons.mp hentry with
            | inl hsame => exact ⟨exp, by rw [hsame, hexp]⟩
            | inr hrest => exact ih h entry hrest

-- An entry whose expiry cannot be read is not gone past.
theorem Polled.before (h : Polled now id beyond found id') {bad : Entry} (hbad : bad ∈ beyond)
    (hsorted : beyond.Pairwise fun a b => a.id < b.id) (hid : id < bad.id)
    (hunreadable : ∀ exp, entryExp bad ≠ .ok exp) :
    id' < bad.id := by
  have hpast : ∀ passed rest, beyond = passed ++ rest → firstLive now passed = .ok none →
      lastIn id passed < bad.id ∧ bad ∈ rest := by
    intro passed rest hsplit hpassed
    have hmem := hbad
    rw [hsplit] at hmem hsorted
    have hnot : bad ∉ passed := by
      intro hpast
      obtain ⟨exp, hexp⟩ := readable_of_passed hpassed bad hpast
      exact hunreadable exp hexp
    have hrest := (List.mem_append.mp hmem).resolve_left hnot
    refine ⟨?_, hrest⟩
    cases lastIn_cases id passed with
    | inl hsame => rwa [hsame]
    | inr hlast =>
        obtain ⟨entry, hentry, hsame⟩ := hlast
        rw [hsame]
        exact (List.pairwise_append.mp hsorted).2.2 entry hentry bad hrest
  cases h with
  | @found passed rest entry hsplit hpassed hlive =>
      obtain ⟨-, hrest⟩ := hpast passed (entry :: rest) hsplit hpassed
      have hreadable : ∃ exp, entryExp entry = .ok exp := by
        cases hexp : entryExp entry with
        | ok exp => exact ⟨exp, rfl⟩
        | error exn =>
            rw [firstLive_of_error hexp] at hlive
            cases hlive
      rw [hsplit] at hsorted
      have hordered := (List.pairwise_append.mp hsorted).2.1
      cases List.mem_cons.mp hrest with
      | inl hsame =>
          obtain ⟨exp, hexp⟩ := hreadable
          rw [← hsame] at hexp
          exact absurd hexp (hunreadable exp)
      | inr hlater => exact (List.pairwise_cons.mp hordered).1 bad hlater
  | nothing hpassed =>
      obtain ⟨exp, hexp⟩ := readable_of_passed hpassed bad hbad
      exact absurd hexp (hunreadable exp)
  | @stuck passed rest exn hsplit hpassed hstuck => exact (hpast passed rest hsplit hpassed).1

end Polls

section Consumes

variable {hmac : Hmac} {context : Context} {topic : Text} {request : Request} {envelope : Bool}
  {fuel : Nat} {w : World} {id : StreamId}

-- A permitted consume is a poll, and then the handing out of what it has found.
theorem consumeTagged_polled
    (hacl : checkAcl context.acl ("q/".toList ++ topic) .read = .ok ())
    (hid : position (w.store.get (cursorKey context.clientId topic)) = some id)
    (hfuel : ((w.store.stream (queueKey topic)).after id).length < fuel) :
    ∃ found id' w', Polled w.clock id ((w.store.stream (queueKey topic)).after id) found id' ∧
      position (w'.store.get (cursorKey context.clientId topic)) = some id' ∧
      (consumeTagged hmac context topic request envelope fuel).runOn w =
        (Handler.ofExcept found >>= handOut hmac context request envelope).runOn w' := by
  obtain ⟨lastId, hstart, hparse⟩ := cursorStart_of_position hid
  obtain ⟨id', hpolled, hposition⟩ := @nextMessage_polled w.clock id
    (cursorKey context.clientId topic) topic fuel lastId w hparse hid hfuel
  refine ⟨_, id', _, hpolled, hposition, ?_⟩
  unfold consumeTagged
  rw [hacl]
  change (Handler.ofExcept (cursorStart (w.store.get (cursorKey context.clientId topic))) >>=
    _).runOn w = _
  rw [hstart]
  change (nextMessage (cursorKey context.clientId topic) topic w.clock fuel lastId >>=
    handOut hmac context request envelope).runOn w = _
  cases hrun : (nextMessage (cursorKey context.clientId topic) topic w.clock fuel lastId).runOn w with
  | mk found w' =>
      rw [Handler.runOn_bind, hrun]
      cases found with
      | ok message => rfl
      | error exn => rfl

theorem handOut_none (w : World) : ∃ response,
    (handOut hmac context request envelope none).runOn w = (.ok (none, response), w) := by
  obtain ⟨response, hrun, -⟩ := signedResponse_runOn hmac context request [] 204 w
  refine ⟨response, ?_⟩
  unfold handOut
  rw [Handler.runOn_bind_of_ok hrun]
  rfl

theorem handOut_ok {entry : Entry} {body : Bytes} (h : messageBody envelope entry = .ok body)
    (w : World) : ∃ response, (handOut hmac context request envelope (some entry)).runOn w =
      (.ok (some entry, response), w) := by
  obtain ⟨response, hrun, -⟩ := signedResponse_runOn hmac context request body 200 w
  refine ⟨response, ?_⟩
  unfold handOut
  dsimp only
  rw [h, Handler.runOn_ofExcept_ok_bind, Handler.runOn_bind_of_ok hrun]
  rfl

theorem handOut_error {entry : Entry} {exn : Exn} (h : messageBody envelope entry = .error exn)
    (w : World) :
    (handOut hmac context request envelope (some entry)).runOn w = (.error exn, w) := by
  unfold handOut
  dsimp only
  rw [h, Handler.runOn_ofExcept_error_bind]

-- What a permitted consume comes to, and where it leaves the cursor.
theorem consumeTagged_cases
    (hacl : checkAcl context.acl ("q/".toList ++ topic) .read = .ok ())
    (hid : position (w.store.get (cursorKey context.clientId topic)) = some id)
    (hfuel : ((w.store.stream (queueKey topic)).after id).length < fuel) :
    ∃ found id', Polled w.clock id ((w.store.stream (queueKey topic)).after id) found id' ∧
      position (((consumeTagged hmac context topic request envelope fuel).runOn w).2.store.get
        (cursorKey context.clientId topic)) = some id' ∧
      (∀ entry, (∃ response, ((consumeTagged hmac context topic request envelope fuel).runOn w).1 =
          .ok (some entry, response)) ↔
        found = .ok (some entry) ∧ ∃ body, messageBody envelope entry = .ok body) ∧
      ((∃ exn, ((consumeTagged hmac context topic request envelope fuel).runOn w).1 = .error exn) ↔
        (∃ exn, found = .error exn) ∨
          ∃ entry, found = .ok (some entry) ∧ ∃ exn, messageBody envelope entry = .error exn) := by
  obtain ⟨found, id', w', hpolled, hposition, hrun⟩ :=
    @consumeTagged_polled hmac context topic request envelope fuel w id hacl hid hfuel
  refine ⟨found, id', hpolled, ?_⟩
  rw [hrun]
  cases found with
  | error exn =>
      refine ⟨hposition, fun entry => iff_of_false ?_ (by simp),
        iff_of_true ⟨exn, rfl⟩ (.inl ⟨exn, rfl⟩)⟩
      rintro ⟨response, hresponse⟩
      cases hresponse
  | ok message =>
      rw [Handler.runOn_ofExcept_ok_bind]
      cases message with
      | none =>
          obtain ⟨response, hout⟩ := @handOut_none hmac context request envelope w'
          rw [hout]
          exact ⟨hposition, by simp, by simp⟩
      | some entry =>
          cases hbody : messageBody envelope entry with
          | error exn =>
              rw [@handOut_error hmac context request envelope entry exn hbody w']
              refine ⟨hposition, fun other => iff_of_false (by simp) ?_,
                iff_of_true ⟨exn, rfl⟩ (.inr ⟨entry, rfl, exn, hbody⟩)⟩
              rintro ⟨hother, body, hok⟩
              rw [← Option.some.inj (Except.ok.inj hother), hbody] at hok
              cases hok
          | ok body =>
              obtain ⟨response, hout⟩ := @handOut_ok hmac context request envelope entry body hbody w'
              rw [hout]
              refine ⟨hposition, fun other => ?_, iff_of_false (by simp) ?_⟩
              · constructor
                · rintro ⟨response', hsame⟩
                  obtain ⟨hentry, -⟩ := Prod.mk.inj (Except.ok.inj hsame)
                  obtain rfl := Option.some.inj hentry
                  exact ⟨rfl, body, hbody⟩
                · rintro ⟨hother, -⟩
                  obtain rfl := Option.some.inj (Except.ok.inj hother)
                  exact ⟨response, rfl⟩
              · rintro (⟨exn, hexn⟩ | ⟨other, hother, exn, herror⟩)
                · cases hexn
                · rw [← Option.some.inj (Except.ok.inj hother), hbody] at herror
                  cases herror

end Consumes

-- The entry that a request hands out, and to whom.
def Record.handed (hmac : Hmac) (topic : Text) (r : Record) : Option (Text × Entry) :=
  match r.act with
  | .consume context request envelope =>
      match ((consumeTagged hmac context topic request envelope (turnsFor topic r.before)).runOn
          r.before).1 with
      | .ok (some entry, _) => some (context.clientId, entry)
      | _ => none
  | _ => none

section Runs

variable {hmac : Hmac} {topic consumer : Text} {w w' w'' : World} {id : StreamId} {entry : Entry}

-- A later world: the stream has only grown, and the consumer's cursor has not gone back.
structure Onward (topic consumer : Text) (w w' : World) : Prop where
  grown : ∃ more, entries topic w' = entries topic w ++ more
  cursor : ∀ id, position (w.store.get (cursorKey consumer topic)) = some id →
    ∃ id', position (w'.store.get (cursorKey consumer topic)) = some id' ∧ id ≤ id'

theorem Onward.refl (topic consumer : Text) (w : World) : Onward topic consumer w w :=
  ⟨⟨[], (List.append_nil _).symm⟩, fun id h => ⟨id, h, le_refl id⟩⟩

theorem Onward.trans (h : Onward topic consumer w w') (h' : Onward topic consumer w' w'') :
    Onward topic consumer w w'' where
  grown := by
    obtain ⟨more, hmore⟩ := h.grown
    obtain ⟨rest, hrest⟩ := h'.grown
    exact ⟨more ++ rest, by rw [hrest, hmore, List.append_assoc]⟩
  cursor := by
    intro id hid
    obtain ⟨id', hid', hle⟩ := h.cursor id hid
    obtain ⟨id'', hid'', hle'⟩ := h'.cursor id' hid'
    exact ⟨id'', hid'', hle.trans hle'⟩

theorem entries_append (topic : Text) (fields : List (Text × Bytes)) (w : World) :
    ∃ entry, entries topic (appendEntry topic fields w) = entries topic w ++ [entry] := by
  refine ⟨⟨(w.store.stream (queueKey topic)).last.next w.redisMs.toNat, fields⟩, ?_⟩
  simp [entries, appendEntry, Store.stream_xadd_self]

theorem turnsFor_enough (topic : Text) (w : World) (id : StreamId) :
    ((w.store.stream (queueKey topic)).after id).length < turnsFor topic w :=
  Nat.lt_succ_of_le (List.length_filter_le _ _)

theorem mem_after_lt : ∀ entry ∈ (w.store.stream (queueKey topic)).after id, id < entry.id :=
  fun _ hentry => (Stream.mem_after.mp hentry).2

theorem consumeMessage_tagged (context : Context) (request : Request) (envelope : Bool)
    (fuel : Nat) : (consumeMessage hmac context topic request envelope fuel).runOn w =
      (((consumeTagged hmac context topic request envelope fuel).runOn w).1.map Prod.snd,
        ((consumeTagged hmac context topic request envelope fuel).runOn w).2) :=
  Handler.runOn_map _ _ _

theorem entries_consume (context : Context) (request : Request) (envelope : Bool) :
    entries topic (recordOf hmac topic w (.consume context request envelope)).after =
      entries topic w := by
  have hframe := (@consumeMessage_uses (fun _ => True)
    (fun key => key = cursorKey context.clientId topic) hmac context request topic envelope
      (turnsFor topic w) trivial rfl trivial).frame w
  exact congrArg Stream.entries (hframe.stream_eq (queueKey_ne_cursorKey _ _ _))

theorem clock_consume (context : Context) (request : Request) (envelope : Bool) :
    (recordOf hmac topic w (.consume context request envelope)).after.clock = w.clock :=
  ((@consumeMessage_uses (fun _ => True) (fun key => key = cursorKey context.clientId topic) hmac
    context request topic envelope (turnsFor topic w) trivial rfl trivial).frame w).clock

-- A step moves the consumer's cursor only as a poll does.
theorem cursor_consume (hid : position (w.store.get (cursorKey consumer topic)) = some id)
    (context : Context) (request : Request) (envelope : Bool) :
    ∃ id', (id' = id ∨ ∃ found, Polled w.clock id ((w.store.stream (queueKey topic)).after id)
        found id') ∧
      position ((recordOf hmac topic w (.consume context request envelope)).after.store.get
        (cursorKey consumer topic)) = some id' := by
  by_cases hsame : consumer = context.clientId
  · subst hsame
    cases hacl : checkAcl context.acl ("q/".toList ++ topic) .read with
    | error exn =>
        have hdenied := @consumeMessage_denied hmac context topic request envelope
          (turnsFor topic w) w exn hacl
        refine ⟨id, .inl rfl, ?_⟩
        change position (((consumeMessage hmac context topic request envelope
          (turnsFor topic w)).runOn w).2.store.get _) = _
        rw [hdenied]
        exact hid
    | ok value =>
        obtain ⟨found, id', hpolled, hposition, -⟩ := @consumeTagged_cases hmac context topic
          request envelope (turnsFor topic w) w id hacl hid (turnsFor_enough topic w id)
        refine ⟨id', .inr ⟨found, hpolled⟩, ?_⟩
        change position (((consumeMessage hmac context topic request envelope
          (turnsFor topic w)).runOn w).2.store.get _) = _
        rw [consumeMessage_tagged]
        exact hposition
  · have hframe := (@consumeMessage_uses (fun _ => True)
      (fun key => key = cursorKey context.clientId topic) hmac context request topic envelope
        (turnsFor topic w) trivial rfl trivial).frame w
    have hother : cursorKey consumer topic ≠ cursorKey context.clientId topic :=
      fun hkey => hsame (cursorKey_injective topic hkey)
    exact ⟨id, .inl rfl, (congrArg position (hframe.get _ hother)).trans hid⟩

theorem cursor_step (hid : position (w.store.get (cursorKey consumer topic)) = some id) (act : Act) :
    ∃ id', (id' = id ∨ ∃ found, Polled w.clock id ((w.store.stream (queueKey topic)).after id)
        found id') ∧
      position ((recordOf hmac topic w act).after.store.get (cursorKey consumer topic)) =
        some id' := by
  cases act with
  | consume context request envelope => exact cursor_consume hid context request envelope
  | tick clock redisMs => exact ⟨id, .inl rfl, hid⟩
  | publish context request ttl =>
      refine ⟨id, .inl rfl, ?_⟩
      have hrun := publishMessage_runOn hmac context topic request ttl w
      change position (((publishMessage hmac context topic request ttl).runOn w).2.store.get _) = _
      cases hfields : publishedFields context topic request ttl w.clock with
      | error exn =>
          rw [hfields] at hrun
          rw [hrun]
          exact hid
      | ok fields =>
          rw [hfields] at hrun
          obtain ⟨response, hrun⟩ := hrun
          rw [hrun]
          simpa [appendEntry] using hid

theorem entries_step (act : Act) : ∃ more,
    entries topic (recordOf hmac topic w act).after = entries topic w ++ more := by
  cases act with
  | consume context request envelope =>
      exact ⟨[], by rw [entries_consume, List.append_nil]⟩
  | tick clock redisMs => exact ⟨[], (List.append_nil _).symm⟩
  | publish context request ttl =>
      have hrun := publishMessage_runOn hmac context topic request ttl w
      change ∃ more, entries topic ((publishMessage hmac context topic request ttl).runOn w).2 = _
      cases hfields : publishedFields context topic request ttl w.clock with
      | error exn =>
          rw [hfields] at hrun
          rw [hrun]
          exact ⟨[], (List.append_nil _).symm⟩
      | ok fields =>
          rw [hfields] at hrun
          obtain ⟨response, hrun⟩ := hrun
          rw [hrun]
          obtain ⟨added, hadded⟩ := entries_append topic fields w
          exact ⟨[added], hadded⟩

theorem onward_recordOf (w : World) (act : Act) :
    Onward topic consumer w (recordOf hmac topic w act).after where
  grown := entries_step act
  cursor := by
    intro id hid
    obtain ⟨id', hmoved, hid'⟩ := @cursor_step hmac topic consumer w id hid act
    refine ⟨id', hid', ?_⟩
    cases hmoved with
    | inl hsame => exact hsame.ge
    | inr hpolled =>
        obtain ⟨found, hpolled⟩ := hpolled
        exact hpolled.le mem_after_lt

-- Every record of a run is one step from a later world.
theorem mem_history {acts : List Act} {r : Record} (h : r ∈ history hmac topic w acts) :
    Onward topic consumer w r.before ∧ r = recordOf hmac topic r.before r.act := by
  induction acts generalizing w with
  | nil => cases h
  | cons act rest ih =>
      rw [history] at h
      cases List.mem_cons.mp h with
      | inl hfirst =>
          rw [hfirst]
          cases act with
          | publish context request ttl => exact ⟨.refl _ _ _, rfl⟩
          | consume context request envelope => exact ⟨.refl _ _ _, rfl⟩
          | tick clock redisMs => exact ⟨.refl _ _ _, rfl⟩
      | inr hrest =>
          obtain ⟨honward, hshape⟩ := ih hrest
          exact ⟨(onward_recordOf w act).trans honward, hshape⟩

theorem consume_of_handed {r : Record} (h : r.handed hmac topic = some (consumer, entry)) :
    ∃ context request envelope, r.act = .consume context request envelope ∧
      context.clientId = consumer := by
  unfold Record.handed at h
  cases hact : r.act with
  | consume context request envelope =>
      rw [hact] at h
      dsimp only at h
      split at h
      · exact ⟨context, request, envelope, rfl, (Prod.mk.inj (Option.some.inj h)).1⟩
      · cases h
  | publish context request ttl =>
      rw [hact] at h
      cases h
  | tick clock redisMs =>
      rw [hact] at h
      cases h

-- What is handed to a consumer is the first live entry beyond its cursor.
theorem handed_iff {context : Context} {request : Request} {envelope : Bool}
    (hid : position (w.store.get (cursorKey context.clientId topic)) = some id) :
    (recordOf hmac topic w (.consume context request envelope)).handed hmac topic =
        some (context.clientId, entry) ↔
      checkAcl context.acl ("q/".toList ++ topic) .read = .ok () ∧
        firstLive w.clock ((w.store.stream (queueKey topic)).after id) = .ok (some entry) ∧
          ∃ body, messageBody envelope entry = .ok body := by
  have hhanded : (recordOf hmac topic w (.consume context request envelope)).handed hmac topic =
      some (context.clientId, entry) ↔ ∃ response, ((consumeTagged hmac context topic request
        envelope (turnsFor topic w)).runOn w).1 = .ok (some entry, response) := by
    unfold Record.handed recordOf
    dsimp only
    cases ((consumeTagged hmac context topic request envelope (turnsFor topic w)).runOn w).1 with
    | error exn => simp
    | ok out =>
        obtain ⟨message, response⟩ := out
        cases message with
        | none => simp
        | some other => simp
  rw [hhanded]
  cases hacl : checkAcl context.acl ("q/".toList ++ topic) .read with
  | error exn =>
      refine iff_of_false ?_ (by simp)
      rintro ⟨response, hresponse⟩
      have hdenied := @consumeMessage_denied hmac context topic request envelope
        (turnsFor topic w) w exn hacl
      rw [consumeMessage_tagged, hresponse] at hdenied
      cases congrArg Prod.fst hdenied
  | ok value =>
      obtain ⟨found, id', hpolled, -, hout, -⟩ := @consumeTagged_cases hmac context topic
        request envelope (turnsFor topic w) w id hacl hid (turnsFor_enough topic w id)
      rw [hout, hpolled.eq_firstLive]
      simp

end Runs

end Stra2us.Queue
