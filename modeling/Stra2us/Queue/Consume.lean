import Stra2us.Foundation.Feed
import Stra2us.Queue.Cursor
import Stra2us.Server.Sequential

namespace Stra2us.Queue

open Foundation Server

-- The expiry second of an entry, and whether it has not passed yet.
def expOf (entry : Entry) : Int :=
  (entryExp entry).toOption.getD 0

def live (now : Int) (entry : Entry) : Bool :=
  now ≤ expOf entry

-- What every entry has that publishing put there.
structure Sound (entry : Entry) : Prop where
  exp : ∃ exp, entryExp entry = .ok exp
  payload : ∃ raw, entryField entry "payload".toList = .ok raw ∧
    (raw = [] ∨ (Msgpack.unpackb false raw).isSome)
  publisher : ∃ name, entryField? entry "client_id".toList = some (utf8 name)
  ms_lt : entry.id.ms < 2 ^ 64

-- Where the cursor stands after the entries that have been gone past.
def lastIdOf (lastId : Text) (gone : List Entry) : Text :=
  match gone.getLast? with
  | some entry => entry.id.text
  | none => lastId

def storeCursor (cursor : Text) (gone : List Entry) (w : World) : World :=
  match gone.getLast? with
  | some entry => { w with store := w.store.set cursor (utf8 entry.id.text) }
  | none => w

section Scan

theorem live_eq {now : Int} {entry : Entry} {exp : Int} (h : entryExp entry = .ok exp) :
    live now entry = decide (now ≤ exp) := by
  simp [live, expOf, h, Except.toOption]

theorem scanBatch_eq {now : Int} {lastId : Text} {entries : List Entry}
    (h : ∀ entry ∈ entries, Sound entry) :
    scanBatch now lastId entries =
      .ok (lastIdOf lastId (Feed.passed (live now) entries), entries.find? (live now)) := by
  induction entries generalizing lastId with
  | nil => rfl
  | cons entry rest ih =>
      obtain ⟨exp, hexp⟩ := (h entry (by simp)).exp
      have hlive : live now entry = decide (now ≤ exp) := live_eq hexp
      have hrest : scanBatch now entry.id.text rest = _ :=
        ih fun e he => h e (List.mem_cons_of_mem _ he)
      unfold scanBatch
      rw [hexp]
      simp only [bind, Except.bind]
      by_cases hle : now ≤ exp
      · have hl : live now entry = true := by simp [hlive, hle]
        simp [hle, Feed.passed, hl, lastIdOf]
      · have hl : live now entry = false := by simp [hlive, hle]
        rw [if_neg hle, hrest]
        simp only [Feed.passed, hl, Bool.false_eq_true, ite_false, List.find?_cons, lastIdOf,
          List.getLast?_cons]
        cases (Feed.passed (live now) rest).getLast? <;> rfl

end Scan

section Loop

theorem storeCursor_clock (cursor : Text) (gone : List Entry) (w : World) :
    (storeCursor cursor gone w).clock = w.clock := by
  unfold storeCursor
  split <;> rfl

theorem storeCursor_stream (cursor : Text) (gone : List Entry) (w : World) (key : Text) :
    (storeCursor cursor gone w).store.stream key = w.store.stream key := by
  unfold storeCursor
  split <;> rfl

-- Storing the cursor batch by batch comes to storing it once.
theorem storeCursor_append (cursor : Text) (first second : List Entry) (w : World) :
    storeCursor cursor second (storeCursor cursor first w) =
      storeCursor cursor (first ++ second) w := by
  unfold storeCursor
  cases hs : second.getLast? with
  | none =>
      have : second = [] := by simpa using hs
      subst this
      simp
  | some e =>
      have hl : (first ++ second).getLast? = some e := by simp [List.getLast?_append, hs]
      rw [hl]
      cases first.getLast? with
      | none => rfl
      | some e' => simp [Store.set, AList.insert_insert]

-- The polling loop with enough turns: it goes past the dead entries and stops at the
-- first live one, whatever the batches.
theorem nextMessage_runOn {cursor topic lastId : Text} {id : StreamId} {fuel : Nat} {w : World}
    (hid : StreamId.parse lastId = some id)
    (hsound : ∀ entry ∈ (w.store.stream (queueKey topic)).after id, Sound entry)
    (hfuel : ((w.store.stream (queueKey topic)).after id).length < fuel) :
    (nextMessage cursor topic w.clock fuel lastId).runOn w =
      (.ok (((w.store.stream (queueKey topic)).after id).find? (live w.clock)),
        storeCursor cursor
          (Feed.passed (live w.clock) ((w.store.stream (queueKey topic)).after id)) w) := by
  induction fuel generalizing lastId id w with
  | zero => omega
  | succ fuel ih =>
      generalize hpending : (w.store.stream (queueKey topic)).after id = pending at *
      have hread : exec (.xread (queueKey topic) lastId batchSize) w =
          (some (pending.take batchSize), w) := by
        simp [exec_xread, hid, Store.xread, hpending]
      unfold Handler.runOn
      rw [run_nextMessage_succ, Prog.run_call, hread]
      rcases hp : pending with _ | ⟨entry, rest⟩
      · simp [Feed.passed, storeCursor]
      set batch := (entry :: rest).take batchSize with hbatch
      have hcons : batch = entry :: rest.take (batchSize - 1) := rfl
      have hsplit : entry :: rest = batch ++ (entry :: rest).drop batchSize :=
        (List.take_append_drop _ _).symm
      have hscan : scanBatch w.clock lastId batch = _ := scanBatch_eq
        fun e (he : e ∈ batch) => hsound e (by rw [hp]; exact List.mem_of_mem_take he)
      -- the cursor goes to the last entry looked at, of which there is one
      obtain ⟨e, he⟩ : ∃ e, (Feed.passed (live w.clock) batch).getLast? = some e := by
        have hne : Feed.passed (live w.clock) batch ≠ [] :=
          Feed.passed_ne_nil _ (by rw [hcons]; simp)
        exact ⟨_, List.getLast?_eq_some_getLast hne⟩
      have hstored : { w with store := w.store.set cursor (utf8 e.id.text) } =
          storeCursor cursor (Feed.passed (live w.clock) batch) w := by simp [storeCursor, he]
      rw [hcons] at hscan
      simp only [hcons, hscan, lastIdOf]
      rw [← hcons, he]
      simp only [Prog.run_call, exec_set, hstored]
      cases hfind : batch.find? (live w.clock) with
      | some found =>
          obtain ⟨hpassed, hfound⟩ := Feed.passed_append_of_found (live w.clock) hfind
            ((entry :: rest).drop batchSize)
          rw [← hsplit] at hpassed hfound
          rw [hpassed, hfound]
          rfl
      | none =>
          obtain ⟨hpassed, hfound⟩ := Feed.passed_append_of_none (live w.clock) hfind
            ((entry :: rest).drop batchSize)
          rw [← hsplit] at hpassed hfound
          have hall := Feed.passed_of_find?_none (live w.clock) hfind
          rw [hall] at he
          have hafter : (w.store.stream (queueKey topic)).after e.id =
              (entry :: rest).drop batchSize := by
            obtain ⟨init, hi⟩ := List.getLast?_eq_some_iff.mp he
            have hrest : batch ++ (entry :: rest).drop batchSize =
                init ++ e :: (entry :: rest).drop batchSize := by
              rw [hi, List.append_assoc]
              rfl
            exact Stream.after_of_split ((hpending.trans hp).trans (hsplit.trans hrest))
          have hnext := ih (w := storeCursor cursor (Feed.passed (live w.clock) batch) w)
            (StreamId.parse_text e.id)
          simp only [storeCursor_clock, storeCursor_stream, hafter] at hnext
          have hstep := hnext
            (fun x hx => hsound x (by rw [hp]; exact List.mem_of_mem_drop hx))
            (by
              rw [hp] at hfuel
              simp only [List.length_drop, List.length_cons, batchSize] at hfuel ⊢
              omega)
          rw [storeCursor_append, hall] at hstep
          rw [hpassed, hfound, hall]
          exact hstep

end Loop

section Answers

variable (hmac : Hmac)

-- The payload as the envelope carries it.
def payloadValue (entry : Entry) : Value :=
  let raw := (entryField entry "payload".toList).toOption.getD []
  (Msgpack.unpackb false raw).getD (.bytes raw)

def publisherOf (entry : Entry) : Bytes :=
  (entryField? entry "client_id".toList).getD (utf8 "unknown".toList)

-- The payload leaves room for one more level of nesting around it.
structure Wraps (entry : Entry) : Prop where
  nests : Msgpack.nestsWithin 511 (payloadValue entry)
  publisher : (publisherOf entry).length < 2 ^ 32

theorem payloadValue_packs {entry : Entry} (h : Sound entry) :
    Msgpack.Packs (payloadValue entry) := by
  obtain ⟨raw, hraw, hvalid⟩ := h.payload
  have hvalue : payloadValue entry = (Msgpack.unpackb false raw).getD (.bytes raw) := by
    rw [payloadValue, hraw]
    rfl
  rw [hvalue]
  cases hu : Msgpack.unpackb false raw with
  | some value => exact Msgpack.unpackb_packs hu
  | none =>
      rcases hvalid with rfl | hsome
      · exact Msgpack.packs_bytes (by simp)
      · simp [hu] at hsome

-- An envelope can be packed exactly when its payload does not nest too deeply.
theorem messageBody_envelope {entry : Entry} (h : Sound entry)
    (hpublisher : (publisherOf entry).length < 2 ^ 32) :
    (∃ body, messageBody true entry = .ok body) ↔ Msgpack.nestsWithin 511 (payloadValue entry) := by
  obtain ⟨raw, hraw, -⟩ := h.payload
  obtain ⟨name, hname⟩ := h.publisher
  have hvalue : (Msgpack.unpackb false raw).getD (.bytes raw) = payloadValue entry := by
    rw [payloadValue, hraw]
    rfl
  have hlen : (utf8 name).length < 2 ^ 32 := by
    rw [publisherOf, hname] at hpublisher
    exact hpublisher
  set wrapped : Value := .dict [(.str "data".toList, payloadValue entry),
    (.str "client_id".toList, .str name),
    (.str "received_at".toList, .int (entry.id.ms / 1000 : Nat))] with hwrapped
  have hbody : messageBody true entry = packOrRaise wrapped := by
    have henvelope : envelopeValue entry raw (utf8 name) = .ok wrapped := by
      simp only [envelopeValue, hvalue, utf8Decode_utf8, hwrapped]
    simp only [messageBody, hraw, hname, Option.getD_some, bind, Except.bind, ite_true,
      henvelope]
  have hpacks : Msgpack.Packs wrapped := by
    refine Msgpack.packs_dict (by simp) ?_
    have hms := h.ms_lt
    intro pair hp
    simp only [List.mem_cons, List.not_mem_nil, or_false] at hp
    rcases hp with rfl | rfl | rfl
    · exact ⟨Msgpack.packs_str (by decide), payloadValue_packs h⟩
    · exact ⟨Msgpack.packs_str (by decide), Msgpack.packs_str hlen⟩
    · exact ⟨Msgpack.packs_str (by decide), Msgpack.packs_int (by omega) (by omega)⟩
  have hnests : Msgpack.nestsWithin 512 wrapped = Msgpack.nestsWithin 511 (payloadValue entry) := by
    simp [Msgpack.nestsWithin, hwrapped]
  rw [← hnests, ← hpacks 512, hbody, Option.isSome_iff_exists]
  constructor
  · rintro ⟨body, hb⟩
    unfold packOrRaise at hb
    split at hb
    · rename_i bytes hpack
      exact ⟨bytes, hpack⟩
    · cases hb
  · rintro ⟨bytes, hpack⟩
    have hpack' : Msgpack.packb wrapped = some bytes := hpack
    exact ⟨bytes, by simp [packOrRaise, hpack']⟩

theorem messageBody_plain {entry : Entry} (h : Sound entry) :
    ∃ body, messageBody false entry = .ok body ∧ entryField entry "payload".toList = .ok body := by
  obtain ⟨raw, hraw, -⟩ := h.payload
  refine ⟨raw, ?_, hraw⟩
  unfold messageBody
  rw [hraw]
  rfl

theorem consumeMessage_denied {context : Context} {topic : Text} {request : Request}
    {envelope : Bool} {fuel : Nat} {w : World} {exn : Exn}
    (h : checkAcl context.acl ("q/".toList ++ topic) .read = .error exn) :
    (consumeMessage hmac context topic request envelope fuel).runOn w = (.error exn, w) := by
  unfold consumeMessage consumeTagged
  rw [h]
  rfl

-- What a consume answers and where it leaves the cursor.
theorem consumeMessage_runOn {context : Context} {topic : Text} {request : Request}
    {envelope : Bool} {fuel : Nat} {w : World} {id : StreamId} {pending : List Entry}
    (hacl : checkAcl context.acl ("q/".toList ++ topic) .read = .ok ())
    (hid : position (w.store.get (cursorKey context.clientId topic)) = some id)
    (hpending : (w.store.stream (queueKey topic)).after id = pending)
    (hsound : ∀ entry ∈ pending, Sound entry) (hfuel : pending.length < fuel)
    (hbody : ∀ entry, pending.find? (live w.clock) = some entry →
      ∃ body, messageBody envelope entry = .ok body) :
    ∃ response, (consumeMessage hmac context topic request envelope fuel).runOn w =
        (.ok response, storeCursor (cursorKey context.clientId topic)
          (Feed.passed (live w.clock) pending) w) ∧
      match pending.find? (live w.clock) with
      | none => response.status = 204
      | some entry => response.status = 200 ∧ messageBody envelope entry = .ok response.body := by
  set cursor := cursorKey context.clientId topic
  obtain ⟨lastId, hstart, hparse⟩ := cursorStart_of_position hid
  have hnext : (nextMessage cursor topic w.clock fuel lastId).runOn w = _ :=
    nextMessage_runOn hparse (by rw [hpending]; exact hsound) (by rw [hpending]; exact hfuel)
  rw [hpending] at hnext
  set w' := storeCursor cursor (Feed.passed (live w.clock) pending) w
  have htagged : (consumeTagged hmac context topic request envelope fuel).runOn w =
      (handOut hmac context request envelope (pending.find? (live w.clock))).runOn w' := by
    unfold consumeTagged
    rw [hacl]
    change (Handler.ofExcept (cursorStart (w.store.get cursor)) >>= _).runOn w = _
    rw [hstart]
    exact Handler.runOn_bind_of_ok hnext
  cases hfind : pending.find? (live w.clock) with
  | none =>
      obtain ⟨response, hrun, -, hstatus, -⟩ :=
        signedResponse_runOn hmac context request [] 204 w'
      refine ⟨response, ?_, hstatus⟩
      unfold consumeMessage
      rw [Handler.runOn_bind, htagged, hfind, handOut, Handler.runOn_bind_of_ok hrun]
      rfl
  | some entry =>
      obtain ⟨body, hb⟩ := hbody entry hfind
      obtain ⟨response, hrun, hrbody, hstatus, -⟩ :=
        signedResponse_runOn hmac context request body 200 w'
      refine ⟨response, ?_, hstatus, by rw [hb, hrbody]⟩
      unfold consumeMessage
      rw [Handler.runOn_bind, htagged, hfind, handOut, hb, Handler.runOn_ofExcept_ok_bind,
        Handler.runOn_bind_of_ok hrun]
      rfl

end Answers

section Publish

variable (hmac : Hmac)

-- What a publish puts into the stream, or why it is refused.
def publishedFields (context : Context) (topic : Text) (request : Request) (ttl now : Int) :
    Except Exn (List (Text × Bytes)) := do
  checkAcl context.acl ("q/".toList ++ topic) .write
  let body ← storedBody request
  let exp ← strInt (now + min ttl maxTtl)
  .ok [("payload".toList, body), ("exp".toList, utf8 exp),
    ("client_id".toList, utf8 context.clientId)]

def appendEntry (topic : Text) (fields : List (Text × Bytes)) (w : World) : World :=
  let added := (w.store.xadd w.redisMs.toNat (queueKey topic) fields).2
  { w with store := added.expire (queueKey topic) (w.redisMs.toNat + 1000 * 604800) }

theorem publishMessage_runOn (context : Context) (topic : Text) (request : Request) (ttl : Int)
    (w : World) :
    match publishedFields context topic request ttl w.clock with
    | .error exn => (publishMessage hmac context topic request ttl).runOn w = (.error exn, w)
    | .ok fields => ∃ response,
        (publishMessage hmac context topic request ttl).runOn w =
          (.ok response, appendEntry topic fields w) := by
  have hmin : (if ttl > maxTtl then maxTtl else ttl) = min ttl maxTtl := by
    split <;> omega
  unfold publishedFields publishMessage
  simp only [hmin]
  cases checkAcl context.acl ("q/".toList ++ topic) .write with
  | error exn => rfl
  | ok _ =>
      cases storedBody request with
      | error exn => rfl
      | ok body =>
          cases hexp : strInt (w.clock + min ttl maxTtl) with
          | error exn =>
              change (Handler.ofExcept (strInt (w.clock + min ttl maxTtl)) >>= _).runOn w =
                (.error exn, w)
              rw [hexp]
              rfl
          | ok exp =>
              obtain ⟨response, hrun, -⟩ := signedMsgpack_runOn hmac context request
                (show (utf8 "ok".toList).length < 2 ^ 32 by decide)
                (appendEntry topic [("payload".toList, body), ("exp".toList, utf8 exp),
                  ("client_id".toList, utf8 context.clientId)] w)
              refine ⟨response, ?_⟩
              change (Handler.ofExcept (strInt (w.clock + min ttl maxTtl)) >>= _).runOn w = _
              rw [hexp]
              exact hrun

theorem storedBody_valid {request : Request} {body : Bytes} (h : storedBody request = .ok body) :
    body = [] ∨ (Msgpack.unpackb false body).isSome := by
  unfold storedBody at h
  dsimp only at h
  by_cases htext : "text/plain".toList <:+: (request.header? "content-type".toList).getD []
  · rw [if_pos htext] at h
    cases hd : utf8Decode request.body with
    | none => simp [hd] at h
    | some text =>
        cases hp : Msgpack.packb (.str text) with
        | none => simp [hd, hp] at h
        | some packed =>
            simp only [hd, hp, Option.bind_some, Except.ok.injEq] at h
            subst h
            right
            rw [Msgpack.unpackb_str hp, Msgpack.makeStr, if_neg (by decide), utf8Decode_utf8]
            rfl
  · rw [if_neg htext] at h
    by_cases hbad : request.body ≠ [] ∧ Msgpack.unpackb false request.body = none
    · rw [if_pos hbad] at h
      cases h
    · rw [if_neg hbad] at h
      obtain rfl := Except.ok.inj h
      by_cases hempty : request.body = []
      · exact Or.inl hempty
      · right
        rw [Option.isSome_iff_ne_none]
        intro hnone
        exact hbad ⟨hempty, hnone⟩

-- An entry put there by a publish has all that a consume will look for.
theorem sound_of_published {context : Context} {topic : Text} {request : Request} {ttl now : Int}
    {fields : List (Text × Bytes)} {id : StreamId}
    (h : publishedFields context topic request ttl now = .ok fields) (hms : id.ms < 2 ^ 64) :
    Sound ⟨id, fields⟩ := by
  unfold publishedFields at h
  cases hacl : checkAcl context.acl ("q/".toList ++ topic) .write with
  | error exn => simp only [hacl, bind, Except.bind] at h; cases h
  | ok _ =>
      cases hbody : storedBody request with
      | error exn => simp only [hacl, hbody, bind, Except.bind] at h; cases h
      | ok body =>
          by_cases hdigits : (natText (now + min ttl maxTtl).natAbs).length ≤ maxIntDigits
          · simp only [hacl, hbody, strInt, if_pos hdigits, bind, Except.bind,
              Except.ok.injEq] at h
            subst h
            have hparse := parseInt_intText _ hdigits
            refine ⟨⟨now + min ttl maxTtl, ?_⟩, ⟨body, ?_, storedBody_valid hbody⟩,
              ⟨context.clientId, ?_⟩, hms⟩
            · have hfield : entryField (⟨id, [("payload".toList, body),
                  ("exp".toList, utf8 (intText (now + min ttl maxTtl))),
                  ("client_id".toList, utf8 context.clientId)]⟩ : Entry) "exp".toList =
                  .ok (utf8 (intText (now + min ttl maxTtl))) := rfl
              simp only [entryExp, hfield, bind, Except.bind, utf8Decode_utf8, Option.bind_some,
                hparse]
            · rfl
            · rfl
          · simp only [hacl, hbody, strInt, if_neg hdigits, bind, Except.bind] at h
            cases h

end Publish

end Stra2us.Queue
