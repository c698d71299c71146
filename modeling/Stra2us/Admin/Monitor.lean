import Stra2us.Server.Device
import Stra2us.Foundation.JsonDocument

namespace Stra2us.Admin

open Foundation Server

section Pages

-- XREVRANGE and XRANGE from an exclusive bound, or from the end.
def xrevrange (s : Stream) (max : Option StreamId) (count : Nat) : List Entry :=
  (match max with
    | none => s.entries.reverse
    | some id => s.entries.reverse.filter fun e => e.id < id).take count

def xrange (s : Stream) (min : Option StreamId) (count : Nat) : List Entry :=
  (match min with
    | none => s.entries
    | some id => s.after id).take count

-- The stream as each page finds it: all that happens in between is that entries are added.
def Grows (reads : Nat → Stream) : Prop :=
  ∀ page, ∃ more, (reads (page + 1)).entries = (reads page).entries ++ more

theorem Grows.from_first {reads : Nat → Stream} (h : Grows reads) (page : Nat) :
    ∃ more, (reads page).entries = (reads 0).entries ++ more := by
  induction page with
  | zero => exact ⟨[], (List.append_nil _).symm⟩
  | succ page ih =>
      obtain ⟨more, hmore⟩ := ih
      obtain ⟨added, hadded⟩ := h page
      exact ⟨more ++ added, by rw [hadded, hmore, List.append_assoc]⟩

theorem Grows.length_le {reads : Nat → Stream} (h : Grows reads) (page : Nat) :
    (reads page).entries.length ≤ (reads (page + 1)).entries.length := by
  obtain ⟨more, hmore⟩ := h page
  rw [hmore, List.length_append]
  omega

def entryClient (entry : Entry) : Bytes :=
  (entryField? entry "client_id".toList).getD []

end Pages

section Filtered

variable (reads : Nat → Stream) (wanted : List Bytes) (limit : Int)

def streamFilterBatch : Nat := 100

def streamFilterMaxBatches : Nat := 10

def IsWanted (entry : Entry) : Bool :=
  decide (entryClient entry ∈ wanted)

-- One batch: what has been found by its end, and whether that is enough.
def takeMatches : List Entry → List Entry → List Entry × Bool
  | found, [] => (found, false)
  | found, entry :: rest =>
      if IsWanted wanted entry then
        if limit ≤ (found ++ [entry]).length then (found ++ [entry], true)
        else takeMatches (found ++ [entry]) rest
      else takeMatches found rest

def xrevrangeFrom : Nat → Nat → Option StreamId → List Entry → List Entry
  | 0, _, _, found => found
  | left + 1, page, cursor, found =>
      let batch := xrevrange (reads page) cursor streamFilterBatch
      match batch.getLast? with
      | none => found
      | some last =>
          let taken := takeMatches wanted limit found batch
          if taken.2 then taken.1
          else if batch.length < streamFilterBatch then taken.1
          else xrevrangeFrom left (page + 1) (some last.id) taken.1

def xrevrangeFiltered : List Entry :=
  xrevrangeFrom reads wanted limit streamFilterMaxBatches 0 none []

variable {reads wanted limit}

theorem takeMatches_eq {found batch : List Entry} (h : (found.length : Int) < limit) :
    takeMatches wanted limit found batch =
      ((found ++ batch.filter (IsWanted wanted)).take limit.toNat,
        decide (limit ≤ (found ++ batch.filter (IsWanted wanted)).length)) := by
  induction batch generalizing found with
  | nil =>
      have htake : found.take limit.toNat = found := List.take_of_length_le (by omega)
      simp [takeMatches, htake, h]
  | cons entry rest ih =>
      unfold takeMatches
      by_cases hwanted : IsWanted wanted entry = true
      · rw [if_pos hwanted, List.filter_cons_of_pos hwanted]
        have happend : found ++ entry :: rest.filter (IsWanted wanted) =
            (found ++ [entry]) ++ rest.filter (IsWanted wanted) := by simp
        rw [happend]
        have hlength : (found ++ [entry]).length = found.length + 1 := by simp
        by_cases hfull : limit ≤ (found ++ [entry]).length
        · have hexact : limit.toNat = (found ++ [entry]).length := by omega
          have henough : limit ≤ ((found ++ [entry]) ++ rest.filter (IsWanted wanted)).length := by
            rw [List.length_append]
            omega
          rw [if_pos hfull, hexact, List.take_left, decide_eq_true henough]
        · rw [if_neg hfull]
          exact ih (by omega)
      · rw [if_neg hwanted, List.filter_cons_of_neg hwanted]
        exact ih h

-- What is older than an entry stands behind it, whatever has been added in front.
theorem older_of_split {s : Stream} {front rest : List Entry} {last : Entry}
    (h : s.entries.reverse = front ++ last :: rest) :
    s.entries.reverse.filter (fun e => e.id < last.id) = rest := by
  have hentries : s.entries = rest.reverse ++ last :: front.reverse := by
    have hback := congrArg List.reverse h
    simpa using hback
  have hsorted := s.sorted
  rw [hentries] at hsorted
  obtain ⟨hrest, hlast, hbefore⟩ := List.pairwise_append.mp hsorted
  obtain ⟨hfront, -⟩ := List.pairwise_cons.mp hlast
  rw [h, List.filter_append, List.filter_cons_of_neg (by simp)]
  have hnone : front.filter (fun e => e.id < last.id) = [] := by
    apply List.filter_eq_nil_iff.mpr
    intro e he
    simpa using (hfront e (by simpa using he)).le
  have hall : rest.filter (fun e => e.id < last.id) = rest := by
    apply List.filter_eq_self.mpr
    intro e he
    simpa using hbefore e (by simpa using he) last (by simp)
  rw [hnone, hall, List.nil_append]

-- Where the scan stands before a page: at the end of so many full batches of what was there
-- at first.
def Reached (s : Stream) (page : Nat) (cursor : Option StreamId) : Prop :=
  page = 0 ∧ cursor = none ∨ ∃ front last rest, s.entries.reverse = front ++ last :: rest ∧
    front.length + 1 = streamFilterBatch * page ∧ cursor = some last.id

theorem batch_eq (hgrows : Grows reads) {page : Nat} {cursor : Option StreamId}
    (h : Reached (reads 0) page cursor) : xrevrange (reads page) cursor streamFilterBatch =
      ((reads 0).entries.reverse.drop (streamFilterBatch * page)).take streamFilterBatch := by
  rcases h with ⟨rfl, rfl⟩ | ⟨front, last, rest, hsplit, hlength, rfl⟩
  · rfl
  · obtain ⟨more, hmore⟩ := hgrows.from_first page
    have hnow : (reads page).entries.reverse = (more.reverse ++ front) ++ last :: rest := by
      rw [hmore, List.reverse_append, hsplit, List.append_assoc]
    have hdrop : (front ++ last :: rest).drop (streamFilterBatch * page) = rest := by
      rw [← hlength, List.append_cons, List.drop_left' (by simp)]
    unfold xrevrange
    dsimp only
    rw [older_of_split hnow, hsplit, hdrop]

theorem reached_next {s : Stream} {page : Nat} {last : Entry}
    (hfull : ((s.entries.reverse.drop (streamFilterBatch * page)).take streamFilterBatch).length =
      streamFilterBatch)
    (hlast : ((s.entries.reverse.drop (streamFilterBatch * page)).take
      streamFilterBatch).getLast? = some last) : Reached s (page + 1) (some last.id) := by
  obtain ⟨init, hinit⟩ := List.getLast?_eq_some_iff.mp hlast
  have hlength := congrArg List.length hinit
  simp only [List.length_append, List.length_singleton] at hlength
  have hinside : streamFilterBatch * page ≤ s.entries.reverse.length := by
    have hpos : 0 < streamFilterBatch := by decide
    rw [List.length_take, List.length_drop] at hfull
    omega
  refine .inr ⟨s.entries.reverse.take (streamFilterBatch * page) ++ init, last,
    (s.entries.reverse.drop (streamFilterBatch * page)).drop streamFilterBatch, ?_, ?_, rfl⟩
  · rw [List.append_assoc, List.append_cons init, ← hinit, List.take_append_drop,
      List.take_append_drop]
  · rw [List.length_append, List.length_take, Nat.min_eq_left hinside, Nat.mul_succ]
    omega

theorem xrevrangeFrom_eq (hgrows : Grows reads) (left page : Nat) {cursor : Option StreamId}
    {found : List Entry} (hreached : Reached (reads 0) page cursor)
    (hfound : found = ((reads 0).entries.reverse.take (streamFilterBatch * page)).filter
      (IsWanted wanted)) (hfew : (found.length : Int) < limit) :
    xrevrangeFrom reads wanted limit left page cursor found =
      (((reads 0).entries.reverse.take (streamFilterBatch * (page + left))).filter
        (IsWanted wanted)).take limit.toNat := by
  induction left generalizing page cursor found with
  | zero =>
      have hall : found.take limit.toNat = found := List.take_of_length_le (by omega)
      rw [Nat.add_zero, ← hfound, hall]
      rfl
  | succ left ih =>
      have hbatch := batch_eq hgrows hreached
      generalize hall : (reads 0).entries.reverse = all at *
      -- what the pages to come can see: this batch, and what is older
      have hsplit (count : Nat) : all.take (streamFilterBatch * page + (streamFilterBatch + count)) =
          all.take (streamFilterBatch * page) ++
            ((all.drop (streamFilterBatch * page)).take streamFilterBatch ++
              ((all.drop (streamFilterBatch * page)).drop streamFilterBatch).take count) := by
        rw [List.take_add, List.take_add]
      have hcount : streamFilterBatch * (page + (left + 1)) =
          streamFilterBatch * page + (streamFilterBatch + streamFilterBatch * left) := by
        rw [Nat.mul_add, Nat.mul_succ]
        omega
      unfold xrevrangeFrom
      rw [hbatch, hcount, hsplit, List.filter_append, List.filter_append, ← hfound]
      dsimp only
      cases hlast : ((all.drop (streamFilterBatch * page)).take streamFilterBatch).getLast? with
      | none =>
          have hempty := List.getLast?_eq_none_iff.mp hlast
          have hnothing : all.drop (streamFilterBatch * page) = [] := by
            by_contra hne
            have hpos := List.length_pos_of_ne_nil hne
            have hzero := congrArg List.length hempty
            have hsize : streamFilterBatch = 100 := rfl
            rw [List.length_take, List.length_nil] at hzero
            omega
          simp only [hnothing, List.take_nil, List.drop_nil, List.filter_nil, List.append_nil]
          exact (List.take_of_length_le (by omega)).symm
      | some last =>
          dsimp only
          rw [takeMatches_eq hfew]
          dsimp only
          generalize hnew : ((all.drop (streamFilterBatch * page)).take streamFilterBatch).filter
            (IsWanted wanted) = new
          by_cases henough : limit ≤ (found ++ new).length
          · rw [decide_eq_true henough, if_pos rfl, ← List.append_assoc]
            exact (List.take_append_of_le_length (by omega)).symm
          · have hshort : (found ++ new).take limit.toNat = found ++ new :=
              List.take_of_length_le (by omega)
            rw [decide_eq_false henough, if_neg (by simp), hshort]
            split_ifs with hend
            · have hnothing : (all.drop (streamFilterBatch * page)).drop streamFilterBatch = [] := by
                apply List.drop_eq_nil_of_le
                rw [List.length_take] at hend
                omega
              rw [hnothing, List.take_nil, List.filter_nil, List.append_nil]
              exact hshort.symm
            · have hfull : ((all.drop (streamFilterBatch * page)).take streamFilterBatch).length =
                  streamFilterBatch := by
                rw [List.length_take] at hend ⊢
                omega
              have hnext := reached_next (hall ▸ hfull) (hall ▸ hlast)
              have hseen : found ++ new =
                  (all.take (streamFilterBatch * (page + 1))).filter (IsWanted wanted) := by
                have hone := hsplit 0
                rw [List.take_zero, List.append_nil, Nat.add_zero, ← Nat.mul_succ] at hone
                rw [hone, List.filter_append, ← hfound, hnew]
              have hrest := ih (page + 1) hnext hseen (by omega)
              rw [hrest, Nat.add_assoc, Nat.add_comm 1 left, hcount, hsplit, List.filter_append,
                List.filter_append, ← hfound, hnew]

-- The pages show the newest thousand entries that were there at first, each once.
theorem xrevrangeFiltered_eq (hgrows : Grows reads) (hlimit : 1 ≤ limit) :
    xrevrangeFiltered reads wanted limit =
      (((reads 0).entries.reverse.take 1000).filter (IsWanted wanted)).take limit.toNat :=
  xrevrangeFrom_eq hgrows streamFilterMaxBatches 0 (.inl ⟨rfl, rfl⟩) rfl (by
    rw [List.length_nil]
    omega)

end Filtered

section Heartbeats

variable (reads : Nat → Stream) (clientId : Text)

def dumpHeartbeatsPage : Nat := 500

def IsFrom (entry : Entry) : Bool :=
  decide (entryClient entry = utf8 clientId)

-- Until the fuel is out or a page is short.
def collectFrom : Nat → Nat → Option StreamId → List Entry → Option (List Entry)
  | 0, _, _, _ => none
  | fuel + 1, page, cursor, found =>
      let batch := xrange (reads page) cursor dumpHeartbeatsPage
      match batch.getLast? with
      | none => some found
      | some last =>
          let found := found ++ batch.filter (IsFrom clientId)
          if batch.length < dumpHeartbeatsPage then some found
          else collectFrom fuel (page + 1) (some last.id) found

-- What Python makes of values that have no JSON form, of bytes and of times.
structure Python where
  jsonDepth : Nat
  jsonDepth_pos : 0 < jsonDepth
  str : Value → Text
  decodeReplace : Bytes → Text
  isoSeconds : Nat → Text

-- `json.dumps(.., default=str)`: an extension is a pair, what else is no JSON is a string.
def Python.jsonForm (py : Python) : Nat → Value → Value
  | 0, value => value
  | depth + 1, value =>
      match value with
      | .list items => .list (items.map (py.jsonForm depth))
      | .dict pairs => .dict (pairs.map fun pair => (pair.1, py.jsonForm depth pair.2))
      | .ext code data => .list [.int code, .str (py.str (.bytes data))]
      | .bytes _ | .timestamp _ _ | .foreign _ _ => .str (py.str value)
      | value => value

-- The first millisecond of the year 10000.
def maxDatetimeMs : Nat := 253402300800000

-- `int` of bytes takes no digits of other scripts.
def bytesInt (raw : Bytes) : Option Int :=
  if raw.all (· < 128) then (utf8Decode raw).bind parseInt else none

def entryPayload (entry : Entry) : Bytes :=
  (entryField? entry "payload".toList).getD []

def heartbeatData (entry : Entry) : Value :=
  (Msgpack.unpackb false (entryPayload entry)).getD .none

def heartbeatExp (entry : Entry) : Int :=
  (bytesInt ((entryField? entry "exp".toList).getD (utf8 ['0']))).getD 0

def dumpsExn : Json.Error → Exn
  | .value => .python "TypeError".toList
  | .digits => .python "ValueError".toList
  | .recursion => .python "RecursionError".toList

def heartbeatLine (py : Python) (entry : Entry) : Except Exn Text := do
  let received ←
    if entry.id.ms < maxDatetimeMs then Except.ok (py.isoSeconds (entry.id.ms / 1000))
    else .error (.python "ValueError".toList)
  let line := Value.dict [(.str "ts_ms".toList, .int entry.id.ms),
    (.str "received_at_iso".toList, .str received),
    (.str "client_id".toList, .str (py.decodeReplace (entryClient entry))),
    (.str "exp".toList, .int (heartbeatExp entry)),
    (.str "data".toList, py.jsonForm py.jsonDepth (heartbeatData entry)),
    (.str "payload_hex".toList, .str (hexdigest (entryPayload entry)))]
  match Json.dumpsValue (py.jsonDepth + 1) line with
  | .ok text => .ok (text ++ ['\n'])
  | .error e => .error (dumpsExn e)

-- The lines that are sent, each with its entry. An exception ends the body.
def emit (line : Entry → Except Exn Text) : List Entry → List (Entry × Text) × Except Exn Unit
  | [] => ([], .ok ())
  | entry :: rest =>
      match line entry with
      | .ok text => ((entry, text) :: (emit line rest).1, (emit line rest).2)
      | .error exn => ([], .error exn)

-- The body after its first line, newest entry first.
def dumpHeartbeats (py : Python) (fuel : Nat) : Option (List (Entry × Text) × Except Exn Unit) :=
  (collectFrom reads clientId fuel 0 none []).map fun found => emit (heartbeatLine py) found.reverse

end Heartbeats

section Collected

variable {reads : Nat → Stream} {clientId : Text} {page fuel : Nat} {cursor : Option StreamId}

def ReachedUp (s : Stream) (page : Nat) (cursor : Option StreamId) : Prop :=
  page = 0 ∧ cursor = none ∨ ∃ front last rest, s.entries = front ++ last :: rest ∧
    front.length + 1 = dumpHeartbeatsPage * page ∧ cursor = some last.id

-- The page after so many full ones is not full.
def Short (reads : Nat → Stream) (page : Nat) : Prop :=
  (reads page).entries.length < dumpHeartbeatsPage * (page + 1)

-- The page that ends the scan.
def Ends (reads : Nat → Stream) (page : Nat) : Prop :=
  Short reads page ∧ ∀ earlier < page, ¬ Short reads earlier

theorem page_eq (h : ReachedUp (reads page) page cursor) :
    xrange (reads page) cursor dumpHeartbeatsPage =
      ((reads page).entries.drop (dumpHeartbeatsPage * page)).take dumpHeartbeatsPage := by
  rcases h with ⟨rfl, rfl⟩ | ⟨front, last, rest, hsplit, hlength, rfl⟩
  · rfl
  · have hdrop : (front ++ last :: rest).drop (dumpHeartbeatsPage * page) = rest := by
      rw [← hlength, List.append_cons, List.drop_left' (by simp)]
    have hsorted := (reads page).sorted
    unfold xrange Stream.after
    dsimp only
    rw [hsplit] at hsorted ⊢
    rw [Stream.filter_gt_of_sorted hsorted, hdrop]

-- A page that is not full ends the scan with all that was there by then, a full one goes on.
theorem collectFrom_succ (hgrows : Grows reads) (hreached : ReachedUp (reads page) page cursor) :
    (Short reads page → collectFrom reads clientId (fuel + 1) page cursor
      (((reads page).entries.take (dumpHeartbeatsPage * page)).filter (IsFrom clientId)) =
        some ((reads page).entries.filter (IsFrom clientId))) ∧
    (¬ Short reads page → ∃ next, ReachedUp (reads (page + 1)) (page + 1) next ∧
      collectFrom reads clientId (fuel + 1) page cursor
        (((reads page).entries.take (dumpHeartbeatsPage * page)).filter (IsFrom clientId)) =
      collectFrom reads clientId fuel (page + 1) next
        (((reads (page + 1)).entries.take (dumpHeartbeatsPage * (page + 1))).filter
          (IsFrom clientId))) := by
  have hbatch := page_eq hreached
  have hinside : dumpHeartbeatsPage * page ≤ (reads page).entries.length := by
    rcases hreached with ⟨rfl, -⟩ | ⟨front, last, rest, hsplit, hlength, -⟩
    · simp
    · rw [hsplit, List.length_append, List.length_cons]
      omega
  have hsize : dumpHeartbeatsPage = 500 := rfl
  have hlength : (((reads page).entries.drop (dumpHeartbeatsPage * page)).take
      dumpHeartbeatsPage).length = min dumpHeartbeatsPage
        ((reads page).entries.length - dumpHeartbeatsPage * page) := by
    rw [List.length_take, List.length_drop]
  have htake : ((reads page).entries.take (dumpHeartbeatsPage * page)).filter (IsFrom clientId) ++
      (((reads page).entries.drop (dumpHeartbeatsPage * page)).take dumpHeartbeatsPage).filter
        (IsFrom clientId) = ((reads page).entries.take
          (dumpHeartbeatsPage * (page + 1))).filter (IsFrom clientId) := by
    rw [← List.filter_append, ← List.take_add, Nat.mul_succ]
  constructor
  · intro hshort
    unfold Short at hshort
    rw [Nat.mul_succ] at hshort
    have hall : (reads page).entries.take (dumpHeartbeatsPage * (page + 1)) =
        (reads page).entries := List.take_of_length_le (by rw [Nat.mul_succ]; omega)
    unfold collectFrom
    rw [hbatch]
    dsimp only
    cases hlast : (((reads page).entries.drop (dumpHeartbeatsPage * page)).take
        dumpHeartbeatsPage).getLast? with
    | none =>
        have hempty := List.getLast?_eq_none_iff.mp hlast
        rw [hempty, List.filter_nil, List.append_nil, hall] at htake
        exact congrArg some htake
    | some last =>
        dsimp only
        rw [if_pos (by rw [hlength]; omega), htake, hall]
  · intro hfull
    unfold Short at hfull
    rw [Nat.mul_succ] at hfull
    obtain ⟨init, last, hinit⟩ : ∃ init last, ((reads page).entries.drop
        (dumpHeartbeatsPage * page)).take dumpHeartbeatsPage = init ++ [last] := by
      refine ⟨_, _, (List.dropLast_append_getLast (List.ne_nil_of_length_pos ?_)).symm⟩
      rw [hlength]
      omega
    have hinitLength := congrArg List.length hinit
    rw [hlength, List.length_append, List.length_singleton] at hinitLength
    obtain ⟨more, hmore⟩ := hgrows page
    refine ⟨some last.id, .inr ⟨(reads page).entries.take (dumpHeartbeatsPage * page) ++ init, last,
      ((reads page).entries.drop (dumpHeartbeatsPage * page)).drop dumpHeartbeatsPage ++ more,
      ?_, ?_, rfl⟩, ?_⟩
    · rw [hmore, List.append_assoc, List.append_cons init, ← hinit, ← List.append_assoc _ _ more,
        List.take_append_drop, ← List.append_assoc, List.take_append_drop]
    · rw [List.length_append, List.length_take, Nat.min_eq_left hinside, Nat.mul_succ]
      omega
    · have hsame : (reads (page + 1)).entries.take (dumpHeartbeatsPage * (page + 1)) =
          (reads page).entries.take (dumpHeartbeatsPage * (page + 1)) := by
        rw [hmore, List.take_append_of_le_length (by rw [Nat.mul_succ]; omega)]
      have hlast : (((reads page).entries.drop (dumpHeartbeatsPage * page)).take
          dumpHeartbeatsPage).getLast? = some last := by
        rw [hinit]
        simp
      rw [hsame]
      conv_lhs => unfold collectFrom
      rw [hbatch]
      dsimp only
      rw [hlast]
      dsimp only
      rw [if_neg (by rw [hlength]; omega), htake]

theorem collectFrom_some (hgrows : Grows reads) {found : List Entry}
    (hreached : ReachedUp (reads page) page cursor)
    (h : collectFrom reads clientId fuel page cursor
      (((reads page).entries.take (dumpHeartbeatsPage * page)).filter (IsFrom clientId)) =
        some found) :
    ∃ last, page ≤ last ∧ Short reads last ∧
      (∀ earlier, page ≤ earlier → earlier < last → ¬ Short reads earlier) ∧
      found = (reads last).entries.filter (IsFrom clientId) := by
  induction fuel generalizing page cursor with
  | zero => nomatch h
  | succ fuel ih =>
      obtain ⟨hends, hgoes⟩ := @collectFrom_succ reads clientId page fuel cursor hgrows hreached
      by_cases hshort : Short reads page
      · rw [hends hshort] at h
        exact ⟨page, le_refl page, hshort, fun earlier hle hlt => absurd hlt (by omega),
          (Option.some.inj h).symm⟩
      · obtain ⟨next, hnext, hrest⟩ := hgoes hshort
        rw [hrest] at h
        obtain ⟨last, hle, hlast, hbefore, hfound⟩ := ih hnext h
        refine ⟨last, by omega, hlast, ?_, hfound⟩
        intro earlier hfrom hlt
        by_cases hsame : earlier = page
        · exact hsame ▸ hshort
        · exact hbefore earlier (by omega) hlt

theorem collectFrom_isSome (hgrows : Grows reads) (hreached : ReachedUp (reads page) page cursor)
    {last : Nat} (hle : page ≤ last) (hlast : Short reads last) (hfuel : last < page + fuel) :
    (collectFrom reads clientId fuel page cursor
      (((reads page).entries.take (dumpHeartbeatsPage * page)).filter
        (IsFrom clientId))).isSome := by
  induction fuel generalizing page cursor with
  | zero => omega
  | succ fuel ih =>
      obtain ⟨hends, hgoes⟩ := @collectFrom_succ reads clientId page fuel cursor hgrows hreached
      by_cases hshort : Short reads page
      · rw [hends hshort]
        rfl
      · obtain ⟨next, hnext, hrest⟩ := hgoes hshort
        have hlater : page ≠ last := by
          intro hsame
          exact hshort (hsame ▸ hlast)
        rw [hrest]
        exact ih hnext (by omega) (by omega)

-- The scan has read all there is by its last page.
theorem collected_iff (hgrows : Grows reads) {found : List Entry} :
    (∃ fuel, collectFrom reads clientId fuel 0 none [] = some found) ↔
      ∃ last, Ends reads last ∧ found = (reads last).entries.filter (IsFrom clientId) := by
  have hstart : ReachedUp (reads 0) 0 none := .inl ⟨rfl, rfl⟩
  have hnone : ((reads 0).entries.take (dumpHeartbeatsPage * 0)).filter (IsFrom clientId) = [] := rfl
  constructor
  · rintro ⟨fuel, h⟩
    obtain ⟨last, -, hlast, hbefore, hfound⟩ := collectFrom_some hgrows hstart (hnone ▸ h)
    exact ⟨last, ⟨hlast, fun earlier hlt => hbefore earlier (Nat.zero_le _) hlt⟩, hfound⟩
  · rintro ⟨last, ⟨hlast, hbefore⟩, rfl⟩
    have hfuel : last < 0 + (last + 1) := by omega
    have hsome : (collectFrom reads clientId (last + 1) 0 none _).isSome :=
      collectFrom_isSome hgrows hstart (Nat.zero_le last) hlast hfuel
    obtain ⟨all, hall⟩ := Option.isSome_iff_exists.mp hsome
    obtain ⟨other, -, hother, hearlier, hfound⟩ := collectFrom_some hgrows hstart hall
    have hsame : other = last := by
      rcases Nat.lt_trichotomy other last with hlt | heq | hgt
      · exact absurd hother (hbefore other hlt)
      · exact heq
      · exact absurd hlast (hearlier last (Nat.zero_le _) hgt)
    exact ⟨last + 1, by rw [← hnone, hall, hfound, hsame]⟩

-- Once nothing is added the pages catch up.
theorem exists_short {n : Nat} (h : ∀ page, n ≤ page → (reads page).entries = (reads n).entries) :
    ∃ page, Short reads page := by
  refine ⟨n + (reads n).entries.length, ?_⟩
  have hsize : dumpHeartbeatsPage = 500 := rfl
  unfold Short
  rw [h _ (Nat.le_add_right _ _), hsize]
  omega

end Collected

section Emitted

variable {py : Python}

-- The time has a calendar date and the payload, where it can be read, a JSON text.
def Renders (py : Python) (entry : Entry) : Prop :=
  entry.id.ms < maxDatetimeMs ∧ ∃ text,
    Json.dumpsValue py.jsonDepth (py.jsonForm py.jsonDepth (heartbeatData entry)) = .ok text

theorem intDigits_heartbeatExp (entry : Entry) :
    Json.intDigits (heartbeatExp entry) = .ok (intText (heartbeatExp entry)) := by
  unfold heartbeatExp bytesInt
  split
  · cases hread : (utf8Decode ((entryField? entry "exp".toList).getD (utf8 ['0']))).bind parseInt with
    | none => rfl
    | some n =>
        obtain ⟨text, -, hparse⟩ := Option.bind_eq_some_iff.mp hread
        exact intDigits_of_parseInt hparse
  · rfl

theorem intDigits_ms {ms : Nat} (h : ms < maxDatetimeMs) :
    Json.intDigits (ms : Int) = .ok (intText ms) := by
  have hpos : 0 < maxIntDigits := by decide
  have hpow : (10 : Nat) ^ 15 ≤ 10 ^ maxIntDigits := Nat.pow_le_pow_right (by omega) (by decide)
  have hbound : maxDatetimeMs ≤ 10 ^ 15 := by decide
  exact if_pos ((Nat.length_toDigits_le_iff (by omega) hpos).mpr (by
    rw [Int.natAbs_natCast]
    omega))

theorem dumpsValue_str (hdepth : 0 < py.jsonDepth) (text : Text) :
    Json.dumpsValue py.jsonDepth (.str text) = .ok (Json.quoteUnits (text.map Char.toNat)) := by
  obtain ⟨depth, hsucc⟩ := Nat.exists_eq_succ_of_ne_zero (Nat.pos_iff_ne_zero.mp hdepth)
  rw [hsucc]
  rfl

theorem dumpsValue_int (hdepth : 0 < py.jsonDepth) (n : Int) :
    Json.dumpsValue py.jsonDepth (.int n) = Json.intDigits n := by
  obtain ⟨depth, hsucc⟩ := Nat.exists_eq_succ_of_ne_zero (Nat.pos_iff_ne_zero.mp hdepth)
  rw [hsucc]
  rfl

theorem heartbeatLine_ok_iff {entry : Entry} :
    (∃ line, heartbeatLine py entry = .ok line) ↔ Renders py entry := by
  have hstr := @dumpsValue_str py py.jsonDepth_pos
  have hint := @dumpsValue_int py py.jsonDepth_pos
  unfold heartbeatLine Renders
  by_cases hms : entry.id.ms < maxDatetimeMs
  · rw [if_pos hms]
    dsimp only [bind, Except.bind]
    rw [Json.dumpsValue_dict]
    cases hdata : Json.dumpsValue py.jsonDepth
        (py.jsonForm py.jsonDepth (heartbeatData entry)) with
    | ok text =>
        simp [List.mapM_cons, Json.dumpsMember, Json.keyText, hstr, hint, hdata,
          intDigits_heartbeatExp, intDigits_ms hms, hms, bind, Except.bind, pure, Except.pure]
    | error e =>
        simp [List.mapM_cons, Json.dumpsMember, Json.keyText, hstr, hint, hdata,
          intDigits_heartbeatExp, intDigits_ms hms, bind, Except.bind]
  · rw [if_neg hms]
    simp [hms, bind, Except.bind]

theorem emit_entries (line : Entry → Except Exn Text) (entries : List Entry) :
    (emit line entries).1.map Prod.fst = entries.takeWhile fun e => (line e).isOk := by
  induction entries with
  | nil => rfl
  | cons entry rest ih =>
      unfold emit
      cases hline : line entry with
      | ok text =>
          rw [List.takeWhile_cons_of_pos (by rw [hline]; rfl), List.map_cons, ih]
      | error exn => rw [List.takeWhile_cons_of_neg (by rw [hline]; exact Bool.false_ne_true)]; rfl

theorem isOk_heartbeatLine {entry : Entry} :
    (heartbeatLine py entry).isOk = true ↔ Renders py entry := by
  rw [← heartbeatLine_ok_iff]
  cases heartbeatLine py entry with
  | ok text => simp [Except.isOk, Except.toBool]
  | error exn => simp [Except.isOk, Except.toBool]

-- A prefix of the newer and the older ones has all of the older ones only when it is complete.
theorem filter_takeWhile_iff {α : Type} {newer old : List α} {p q : α → Bool}
    (hnewer : ∀ e ∈ newer, q e = false) (hold : ∀ e ∈ old, q e = true) :
    ((newer ++ old).takeWhile p).filter q = old ↔ old = [] ∨ ∀ e ∈ newer ++ old, p e := by
  have hall : (newer ++ old).filter q = old := by
    rw [List.filter_append, List.filter_eq_nil_iff.mpr (by simpa using hnewer),
      List.filter_eq_self.mpr hold, List.nil_append]
  constructor
  · intro heq
    by_contra hneither
    obtain ⟨hne, hfails⟩ := not_or.mp hneither
    obtain ⟨init, last, rfl⟩ : ∃ init last, old = init ++ [last] :=
      ⟨_, _, (List.dropLast_append_getLast hne).symm⟩
    have hshort : (newer ++ (init ++ [last])).takeWhile p <+: newer ++ init := by
      have hprefix : (newer ++ (init ++ [last])).takeWhile p <+: (newer ++ init) ++ [last] :=
        List.append_assoc newer init [last] ▸ List.takeWhile_prefix p
      rcases List.prefix_concat_iff.mp hprefix with hwhole | hpart
      · exfalso
        apply hfails
        rw [← List.append_assoc]
        exact List.takeWhile_eq_self_iff.mp (List.append_assoc newer init [last] ▸ hwhole)
      · exact hpart
    have hcount := (hshort.sublist.filter q).length_le
    have hinit : (newer ++ init).filter q = init := by
      rw [List.filter_append, List.filter_eq_nil_iff.mpr (by simpa using hnewer),
        List.filter_eq_self.mpr fun e he => hold e (by simp [he]), List.nil_append]
    rw [heq, hinit, List.length_append, List.length_singleton] at hcount
    omega
  · intro hcases
    rcases hcases with rfl | hpass
    · apply List.filter_eq_nil_iff.mpr
      intro e he
      have hin := (List.takeWhile_prefix p).sublist.subset he
      simp [hnewer e (by simpa using hin)]
    · rw [List.takeWhile_eq_self_iff.mpr hpass, hall]

end Emitted

section Plain

-- Every entry asked for that was there at first, once, newest first.
def DumpsAll (first : Stream) (clientId : Text) (emitted : List Entry) : Prop :=
  emitted.Pairwise (fun a b => b.id < a.id) ∧
    emitted.filter (fun e => e ∈ first.entries) =
      (first.entries.filter (IsFrom clientId)).reverse

def ScansPlain (py : Python) (reads : Nat → Stream) (clientId : Text) : Prop :=
  (∀ (wanted : List Bytes) (limit : Int), 1 ≤ limit → xrevrangeFiltered reads wanted limit =
    (((reads 0).entries.reverse.take 1000).filter (IsWanted wanted)).take limit.toNat) ∧
  ((∃ n, ∀ page, n ≤ page → (reads page).entries = (reads n).entries) →
    ∃ fuel, (dumpHeartbeats reads clientId py fuel).isSome) ∧
  ∀ fuel dump, dumpHeartbeats reads clientId py fuel = some dump →
    DumpsAll (reads 0) clientId (dump.1.map Prod.fst)

variable {py : Python} {reads : Nat → Stream} {clientId : Text}

theorem exists_ends {page : Nat} (h : Short reads page) : ∃ last, Ends reads last := by
  induction page using Nat.strong_induction_on with
  | _ page ih =>
      by_cases hfirst : ∃ earlier < page, Short reads earlier
      · obtain ⟨earlier, hlt, hshort⟩ := hfirst
        exact ih earlier hlt hshort
      · exact ⟨page, h, fun earlier hlt hshort => hfirst ⟨earlier, hlt, hshort⟩⟩

theorem dumpsAll_iff (hgrows : Grows reads) (page : Nat) :
    DumpsAll (reads 0) clientId ((emit (heartbeatLine py)
      ((reads page).entries.filter (IsFrom clientId)).reverse).1.map Prod.fst) ↔
    (reads 0).entries.filter (IsFrom clientId) = [] ∨
      ∀ e ∈ (reads page).entries, IsFrom clientId e → Renders py e := by
  obtain ⟨more, hmore⟩ := hgrows.from_first page
  have hsorted := (reads page).sorted
  have hback : ((reads page).entries.filter (IsFrom clientId)).reverse =
      (more.filter (IsFrom clientId)).reverse ++
        ((reads 0).entries.filter (IsFrom clientId)).reverse := by
    rw [hmore, List.filter_append, List.reverse_append]
  have hsplit := hsorted
  rw [hmore] at hsplit
  obtain ⟨-, -, hbefore⟩ := List.pairwise_append.mp hsplit
  have hnewer : ∀ e ∈ (more.filter (IsFrom clientId)).reverse,
      decide (e ∈ (reads 0).entries) = false := by
    intro e he
    apply decide_eq_false
    intro hold
    have hin : e ∈ more := (List.mem_filter.mp (List.mem_reverse.mp he)).1
    exact lt_irrefl _ (hbefore e hold e hin)
  have hold : ∀ e ∈ ((reads 0).entries.filter (IsFrom clientId)).reverse,
      decide (e ∈ (reads 0).entries) = true := by
    intro e he
    exact decide_eq_true (List.mem_filter.mp (List.mem_reverse.mp he)).1
  have hiff := filter_takeWhile_iff (p := fun e => (heartbeatLine py e).isOk) hnewer hold
  rw [← hback, List.reverse_eq_nil_iff] at hiff
  have hdecreasing : (((reads page).entries.filter (IsFrom clientId)).reverse.takeWhile
      fun e => (heartbeatLine py e).isOk).Pairwise fun a b => b.id < a.id :=
    (List.pairwise_reverse.mpr (hsorted.sublist List.filter_sublist)).sublist
      (List.takeWhile_prefix _).sublist
  unfold DumpsAll
  rw [emit_entries, and_iff_right hdecreasing, hiff]
  simp [isOk_heartbeatLine]

-- The scans read what a plain scan does; the dump loses all that is older than an entry it
-- cannot write.
theorem scansPlain_iff (hgrows : Grows reads) : ScansPlain py reads clientId ↔
    (reads 0).entries.filter (IsFrom clientId) = [] ∨
      ∀ last, Ends reads last → ∀ e ∈ (reads last).entries, IsFrom clientId e → Renders py e := by
  have hdump (last : Nat) : Ends reads last → ∃ fuel, dumpHeartbeats reads clientId py fuel =
      some (emit (heartbeatLine py) ((reads last).entries.filter (IsFrom clientId)).reverse) := by
    intro hends
    obtain ⟨fuel, hfuel⟩ := (collected_iff hgrows).mpr ⟨last, hends, rfl⟩
    exact ⟨fuel, by rw [dumpHeartbeats, hfuel, Option.map_some]⟩
  constructor
  · rintro ⟨-, -, hall⟩
    refine or_iff_not_imp_left.mpr ?_
    intro hsome last hends
    obtain ⟨fuel, hfuel⟩ := hdump last hends
    exact ((dumpsAll_iff hgrows last).mp (hall fuel _ hfuel)).resolve_left hsome
  · intro hcond
    refine ⟨fun wanted limit hlimit => xrevrangeFiltered_eq hgrows hlimit, ?_, ?_⟩
    · rintro ⟨n, hstill⟩
      obtain ⟨page, hshort⟩ := exists_short hstill
      obtain ⟨last, hends⟩ := exists_ends hshort
      obtain ⟨fuel, hfuel⟩ := hdump last hends
      exact ⟨fuel, by rw [hfuel]; rfl⟩
    · intro fuel dump hfuel
      obtain ⟨found, hfound, rfl⟩ := Option.map_eq_some_iff.mp hfuel
      obtain ⟨last, hends, rfl⟩ := (collected_iff hgrows).mp ⟨fuel, hfound⟩
      exact (dumpsAll_iff hgrows last).mpr (hcond.imp_right fun h => h last hends)

-- What these readers make of the entries below.
def epochPython : Python where
  jsonDepth := 900
  jsonDepth_pos := by decide
  str _ := []
  decodeReplace raw := (utf8Decode raw).getD []
  isoSeconds _ := "1970-01-01T00:00:00Z".toList

def beat (seq : Nat) (payload : Bytes) : Entry :=
  ⟨⟨0, seq⟩, [("client_id".toList, [100]), ("exp".toList, [57]), ("payload".toList, payload)]⟩

-- Two heartbeats, the later one with the payload given.
def beats (payload : Bytes) : Stream where
  entries := [beat 1 [7], beat 2 payload]
  last := ⟨0, 2⟩
  expireAt := none
  sorted := List.pairwise_pair.mpr (show (⟨0, 1⟩ : StreamId) < ⟨0, 2⟩ by decide)
  le_last := by
    intro entry he
    simp only [List.mem_cons, List.not_mem_nil, or_false] at he
    rcases he with rfl | rfl
    · decide
    · exact le_refl _

theorem renders_beat (seq : Nat) : Renders epochPython (beat seq [7]) :=
  ⟨show 0 < maxDatetimeMs by decide, "7".toList, rfl⟩

theorem scansPlain_beats : Grows (fun _ => beats [7]) ∧
    ScansPlain epochPython (fun _ => beats [7]) ['d'] := by
  have hgrows : Grows fun _ => beats [7] := fun _ => ⟨[], (List.append_nil _).symm⟩
  refine ⟨hgrows, (scansPlain_iff hgrows).mpr (.inr ?_)⟩
  intro last _ e he _
  simp only [beats, List.mem_cons, List.not_mem_nil, or_false] at he
  rcases he with rfl | rfl
  · exact renders_beat 1
  · exact renders_beat 2

-- A map with a key that is no text has no JSON form: nothing older is sent.
theorem dump_stops_at_bytes_key : ¬ ∀ (py : Python) (reads : Nat → Stream) (clientId : Text),
    Grows reads → ScansPlain py reads clientId := by
  intro hall
  have hgrows : Grows fun _ => beats [0x81, 0xc4, 1, 97, 1] :=
    fun _ => ⟨[], (List.append_nil _).symm⟩
  obtain ⟨-, -, hdumps⟩ := hall epochPython _ ['d'] hgrows
  have hnothing : dumpHeartbeats (fun _ => beats [0x81, 0xc4, 1, 97, 1]) ['d'] epochPython 1 =
      some ([], .error (.python "TypeError".toList)) := by decide +kernel
  obtain ⟨-, hempty⟩ := hdumps 1 _ hnothing
  have hlength := congrArg List.length hempty
  revert hlength
  decide

end Plain

end Stra2us.Admin
