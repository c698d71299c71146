import Stra2us.Queue.Cursor
import Stra2us.Server.Sequential

namespace Stra2us.Queue

open Foundation Server

-- The first entry that has not expired, where those before it can be told to have.
def firstLive (now : Int) : List Entry → Except Exn (Option Entry)
  | [] => .ok none
  | entry :: rest => do
      let exp ← entryExp entry
      if now ≤ exp then .ok (some entry) else firstLive now rest

section Scan

variable {now : Int} {lastId newId : Text} {entries a : List Entry} {entry : Entry}

theorem firstLive_of_ok {exp : Int} (h : entryExp entry = .ok exp) (rest : List Entry) :
    firstLive now (entry :: rest) = if now ≤ exp then .ok (some entry) else firstLive now rest := by
  rw [firstLive, h]
  rfl

theorem firstLive_of_error {exn : Exn} (h : entryExp entry = .error exn) (rest : List Entry) :
    firstLive now (entry :: rest) = .error exn := by
  rw [firstLive, h]
  rfl

-- A search that comes to nothing goes on in what follows; any other is over.
theorem firstLive_append (b : List Entry) :
    firstLive now (a ++ b) =
      match firstLive now a with
      | .ok none => firstLive now b
      | found => found := by
  induction a with
  | nil => rfl
  | cons entry rest ih =>
      cases hexp : entryExp entry with
      | error exn => rw [List.cons_append, firstLive_of_error hexp, firstLive_of_error hexp]
      | ok exp =>
          rw [List.cons_append, firstLive_of_ok hexp, firstLive_of_ok hexp]
          by_cases hle : now ≤ exp
          · rw [if_pos hle, if_pos hle]
          · rw [if_neg hle, if_neg hle]
            exact ih

theorem scanBatch_found (lastId : Text) (entries : List Entry) :
    (scanBatch now lastId entries).map Prod.snd = firstLive now entries := by
  induction entries generalizing lastId with
  | nil => rfl
  | cons entry rest ih =>
      unfold scanBatch
      cases hexp : entryExp entry with
      | error exn =>
          rw [firstLive_of_error hexp]
          rfl
      | ok exp =>
          rw [firstLive_of_ok hexp]
          simp only [bind, Except.bind]
          by_cases hle : now ≤ exp
          · rw [if_pos hle, if_pos hle]
            rfl
          · rw [if_neg hle, if_neg hle]
            exact ih entry.id.text

-- A scan that finds nothing ends on the last entry.
theorem scanBatch_end (h : scanBatch now lastId entries = .ok (newId, none)) (hne : entries ≠ []) :
    ∃ before last, entries = before ++ [last] ∧ newId = last.id.text := by
  induction entries generalizing lastId with
  | nil => exact absurd rfl hne
  | cons entry rest ih =>
      unfold scanBatch at h
      cases hexp : entryExp entry with
      | error exn =>
          rw [hexp] at h
          cases h
      | ok exp =>
          rw [hexp] at h
          simp only [bind, Except.bind] at h
          by_cases hle : now ≤ exp
          · rw [if_pos hle] at h
            cases h
          · rw [if_neg hle] at h
            cases rest with
            | nil =>
                obtain ⟨hnew, -⟩ := Prod.mk.inj (Except.ok.inj h)
                exact ⟨[], entry, rfl, hnew.symm⟩
            | cons next more =>
                obtain ⟨before, last, hsplit, hnew⟩ := ih h (by simp)
                exact ⟨entry :: before, last, by rw [hsplit]; rfl, hnew⟩

end Scan

section Loop

variable {cursor topic : Text} {now : Int}

-- With enough turns the loop comes to the first live entry there is, over all batches.
theorem nextMessage_result {fuel : Nat} {lastId : Text} {id : StreamId} {w : World}
    (hid : StreamId.parse lastId = some id)
    (hfuel : ((w.store.stream (queueKey topic)).after id).length < fuel) :
    ((nextMessage cursor topic now fuel lastId).runOn w).1 =
      firstLive now ((w.store.stream (queueKey topic)).after id) := by
  induction fuel generalizing lastId id w with
  | zero => omega
  | succ fuel ih =>
      generalize hpending : (w.store.stream (queueKey topic)).after id = pending at *
      have hread : exec (.xread (queueKey topic) lastId batchSize) w =
          (some (pending.take batchSize), w) := by
        simp [exec_xread, hid, Store.xread, hpending]
      unfold Handler.runOn
      rw [run_nextMessage_succ, Prog.run_call, hread]
      cases pending with
      | nil => rfl
      | cons entry rest =>
          have hcons : (entry :: rest).take batchSize = entry :: rest.take (batchSize - 1) := rfl
          let batch := entry :: rest.take (batchSize - 1)
          have hsplit : entry :: rest = batch ++ (entry :: rest).drop batchSize :=
            (List.take_append_drop batchSize (entry :: rest)).symm
          have hfound := @scanBatch_found now lastId batch
          rw [hcons]
          dsimp only
          rw [hsplit, firstLive_append]
          cases hscan : scanBatch now lastId batch with
          | error exn =>
              rw [hscan] at hfound
              rw [← hfound]
              rfl
          | ok scanned =>
              obtain ⟨newId, live⟩ := scanned
              rw [hscan] at hfound
              rw [← hfound]
              cases live with
              | some found => rfl
              | none =>
                  obtain ⟨before, last, hbatch, rfl⟩ := scanBatch_end hscan (by simp)
                  have hafter : (w.store.stream (queueKey topic)).after last.id =
                      (entry :: rest).drop batchSize := by
                    refine @Stream.after_of_split _ _ before _ _ (hpending.trans (hsplit.trans ?_))
                    rw [show batch = before ++ [last] from hbatch, List.append_assoc]
                    rfl
                  have hstep := @ih last.id.text last.id
                    { w with store := w.store.set cursor (utf8 last.id.text) } (StreamId.parse_text _)
                  change ((w.store.stream (queueKey topic)).after last.id).length < fuel → _ =
                    firstLive now ((w.store.stream (queueKey topic)).after last.id) at hstep
                  rw [hafter] at hstep
                  refine hstep ?_
                  simp only [List.length_drop, List.length_cons, batchSize] at hfuel ⊢
                  omega

end Loop

section Polled

def lastIn (id : StreamId) (passed : List Entry) : StreamId :=
  (passed.getLast?.map Entry.id).getD id

-- What a poll from an id has come to, and where it leaves the cursor: at what it hands out, or
-- at the last entry of what it has seen to have expired.
inductive Polled (now : Int) (id : StreamId) (beyond : List Entry) :
    Except Exn (Option Entry) → StreamId → Prop
  | found {passed rest : List Entry} {entry : Entry} (hsplit : beyond = passed ++ entry :: rest)
      (hpassed : firstLive now passed = .ok none)
      (hlive : firstLive now (entry :: rest) = .ok (some entry)) :
      Polled now id beyond (.ok (some entry)) entry.id
  | nothing (hpassed : firstLive now beyond = .ok none) :
      Polled now id beyond (.ok none) (lastIn id beyond)
  | stuck {passed rest : List Entry} {exn : Exn} (hsplit : beyond = passed ++ rest)
      (hpassed : firstLive now passed = .ok none) (hstuck : firstLive now rest = .error exn) :
      Polled now id beyond (.error exn) (lastIn id passed)

variable {now : Int} {id id' : StreamId} {cursor topic : Text}

theorem lastIn_append (id : StreamId) (first rest : List Entry) :
    lastIn id (first ++ rest) = lastIn (lastIn id first) rest := by
  unfold lastIn
  rw [List.getLast?_append]
  cases rest.getLast? with
  | none => rfl
  | some last => rfl

-- A poll goes on from where a batch of expired entries ends.
theorem Polled.after {batch rest : List Entry} {result : Except Exn (Option Entry)}
    (hbatch : firstLive now batch = .ok none)
    (h : Polled now (lastIn id batch) rest result id') : Polled now id (batch ++ rest) result id' := by
  cases h with
  | @found passed others entry hsplit hpassed hlive =>
      refine @Polled.found _ _ _ (batch ++ passed) others entry ?_ ?_ hlive
      · rw [hsplit, List.append_assoc]
      · rw [firstLive_append, hbatch]
        exact hpassed
  | nothing hpassed =>
      rw [← lastIn_append]
      refine .nothing ?_
      rw [firstLive_append, hbatch]
      exact hpassed
  | @stuck passed others exn hsplit hpassed hstuck =>
      rw [← lastIn_append]
      refine @Polled.stuck _ _ _ (batch ++ passed) others exn ?_ ?_ hstuck
      · rw [hsplit, List.append_assoc]
      · rw [firstLive_append, hbatch]
        exact hpassed

theorem scanBatch_live {lastId newId : Text} {entries : List Entry} {entry : Entry}
    (h : scanBatch now lastId entries = .ok (newId, some entry)) :
    newId = entry.id.text ∧ ∃ passed rest, entries = passed ++ entry :: rest ∧
      firstLive now passed = .ok none ∧ ∀ more, firstLive now (entry :: more) = .ok (some entry) := by
  induction entries generalizing lastId with
  | nil => cases congrArg (fun result => result.map Prod.snd) h
  | cons first rest ih =>
      unfold scanBatch at h
      cases hexp : entryExp first with
      | error exn =>
          rw [hexp] at h
          cases h
      | ok exp =>
          rw [hexp] at h
          simp only [bind, Except.bind] at h
          by_cases hle : now ≤ exp
          · rw [if_pos hle] at h
            obtain ⟨hnew, hentry⟩ := Prod.mk.inj (Except.ok.inj h)
            obtain rfl := Option.some.inj hentry
            refine ⟨hnew.symm, [], rest, rfl, rfl, fun more => ?_⟩
            rw [firstLive_of_ok hexp, if_pos hle]
          · rw [if_neg hle] at h
            obtain ⟨hnew, passed, others, rfl, hpassed, hlive⟩ := ih h
            refine ⟨hnew, first :: passed, others, rfl, ?_, hlive⟩
            rw [firstLive_of_ok hexp, if_neg hle, hpassed]

-- Whatever is in the stream, the loop comes to one of the three.
theorem nextMessage_polled {fuel : Nat} {lastId : Text} {w : World}
    (hid : StreamId.parse lastId = some id) (hcursor : position (w.store.get cursor) = some id)
    (hfuel : ((w.store.stream (queueKey topic)).after id).length < fuel) :
    ∃ id', Polled now id ((w.store.stream (queueKey topic)).after id)
        ((nextMessage cursor topic now fuel lastId).runOn w).1 id' ∧
      position (((nextMessage cursor topic now fuel lastId).runOn w).2.store.get cursor) =
        some id' := by
  induction fuel generalizing lastId id w with
  | zero => omega
  | succ fuel ih =>
      generalize hpending : (w.store.stream (queueKey topic)).after id = pending at *
      have hread : exec (.xread (queueKey topic) lastId batchSize) w =
          (some (pending.take batchSize), w) := by
        simp [exec_xread, hid, Store.xread, hpending]
      unfold Handler.runOn
      rw [run_nextMessage_succ, Prog.run_call, hread]
      cases pending with
      | nil => exact ⟨id, .nothing rfl, hcursor⟩
      | cons entry rest =>
          have hcons : (entry :: rest).take batchSize = entry :: rest.take (batchSize - 1) := rfl
          let batch := entry :: rest.take (batchSize - 1)
          have hsplit : entry :: rest = batch ++ (entry :: rest).drop batchSize :=
            (List.take_append_drop batchSize (entry :: rest)).symm
          have hfound := @scanBatch_found now lastId batch
          rw [hcons]
          dsimp only
          rw [hsplit]
          cases hscan : scanBatch now lastId batch with
          | error exn =>
              rw [hscan] at hfound
              refine ⟨id, ?_, hcursor⟩
              have hstuck : firstLive now (batch ++ (entry :: rest).drop batchSize) = .error exn := by
                rw [firstLive_append, ← hfound]
                rfl
              exact @Polled.stuck _ _ _ [] _ exn rfl rfl hstuck
          | ok scanned =>
              obtain ⟨newId, live⟩ := scanned
              rw [hscan] at hfound
              cases live with
              | some found =>
                  obtain ⟨rfl, passed, others, hbatch, hpassed, hlive⟩ := scanBatch_live hscan
                  refine ⟨found.id, ?_, ?_⟩
                  · rw [show batch = passed ++ found :: others from hbatch, List.append_assoc]
                    exact .found rfl hpassed (hlive _)
                  · change position ((w.store.set cursor (utf8 found.id.text)).get cursor) = _
                    rw [Store.get_set_self, position_text]
              | none =>
                  obtain ⟨before, last, hbatch, rfl⟩ := scanBatch_end hscan (by simp)
                  have hafter : (w.store.stream (queueKey topic)).after last.id =
                      (entry :: rest).drop batchSize := by
                    refine @Stream.after_of_split _ _ before _ _ (hpending.trans (hsplit.trans ?_))
                    rw [show batch = before ++ [last] from hbatch, List.append_assoc]
                    rfl
                  have hlast : lastIn id batch = last.id := by
                    rw [show batch = before ++ [last] from hbatch, lastIn_append]
                    rfl
                  have hstep := @ih last.id last.id.text
                    { w with store := w.store.set cursor (utf8 last.id.text) } (StreamId.parse_text _)
                    (by
                      change position ((w.store.set cursor (utf8 last.id.text)).get cursor) = _
                      rw [Store.get_set_self, position_text])
                  change ((w.store.stream (queueKey topic)).after last.id).length < fuel →
                    ∃ id', Polled now last.id ((w.store.stream (queueKey topic)).after last.id) _ id' ∧
                      _ at hstep
                  rw [hafter] at hstep
                  obtain ⟨id', hpolled, hposition⟩ := hstep (by
                    simp only [List.length_drop, List.length_cons, batchSize] at hfuel ⊢
                    omega)
                  refine ⟨id', ?_, hposition⟩
                  refine Polled.after hfound.symm ?_
                  rw [hlast]
                  exact hpolled

end Polled

end Stra2us.Queue
