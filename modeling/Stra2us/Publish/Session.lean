import Stra2us.Kv.Frame
import Stra2us.Publish.Assets

namespace Stra2us.Publish

open Foundation Server

section Records

-- How a call fares: it works, it is refused before anything is done, or it is done and the
-- answer is lost.
inductive Fate
  | works
  | refused
  | unheard
deriving DecidableEq, Repr

def isMissing : Value → Bool
  | .none => true
  | .dict pairs =>
      match Value.lookup pairs "status".toList with
      | some status => isText status "not_found".toList
      | none => false
  | _ => false

-- A record that is not flagged, as the client gets it. Nothing that is published is flagged.
def fetch (s : Store) (key : Text) : Except Exn (Option Value) :=
  match s.get (kvKey key) with
  | none => .ok none
  | some raw =>
      match Msgpack.unpackb false raw with
      | none => .error stra2usError
      | some value => .ok (if isMissing value then none else some value)

def written (s : Store) (key : Text) (bytes : Bytes) : Store :=
  (s.set (kvKey key) bytes).delete [encKey key]

def removed (s : Store) (key : Text) : Store :=
  s.delete [kvKey key, encKey key]

def answer (fate : Fate) : (cmd : ClientCmd) → Store → ClientReply cmd × Store
  | .get key, s => (if fate = .works then fetch s key else .error stra2usError, s)
  | .put key content, s =>
      match Msgpack.packb content.toValue with
      | none => (.error (.python "ValueError".toList), s)
      | some bytes =>
          match fate with
          | .works => (.ok (), written s key bytes)
          | .refused => (.error stra2usError, s)
          | .unheard => (.error stra2usError, written s key bytes)
  | .delete key, s =>
      match fate with
      | .works => (.ok (), removed s key)
      | .refused => (.error stra2usError, s)
      | .unheard => (.error stra2usError, removed s key)

theorem isMissing_toValue (content : Content) : isMissing content.toValue = false := by
  cases content with
  | bytes payload => rfl
  | yaml text => rfl
  | sidecar contentType sha256 size => rfl
  | listing names => rfl

theorem get_written (s : Store) (key other : Text) (bytes : Bytes) :
    (written s key bytes).get (kvKey other) =
      if other = key then some bytes
      else if other = key ++ ":enc".toList then none else s.get (kvKey other) := by
  unfold written
  rw [Store.get_delete, Kv.encKey_eq_kvKey]
  by_cases hkey : other = key
  · subst hkey
    rw [if_neg, if_pos rfl, Store.get_set_self]
    intro hmem
    have hsame := kvKey_injective (List.mem_singleton.mp hmem)
    have hlength := congrArg List.length hsame
    simp at hlength
  · rw [if_neg hkey]
    by_cases hflag : other = key ++ ":enc".toList
    · rw [if_pos hflag, if_pos (by rw [hflag]; simp)]
    · rw [if_neg hflag, if_neg, Store.get_set_of_ne _ fun h => hkey (kvKey_injective h)]
      intro hmem
      exact hflag (kvKey_injective (List.mem_singleton.mp hmem))

theorem get_removed (s : Store) (key other : Text) :
    (removed s key).get (kvKey other) =
      if other = key ∨ other = key ++ ":enc".toList then none else s.get (kvKey other) := by
  unfold removed
  rw [Store.get_delete, Kv.encKey_eq_kvKey]
  by_cases h : other = key ∨ other = key ++ ":enc".toList
  · rw [if_pos h, if_pos]
    rcases h with rfl | rfl
    · simp
    · simp
  · rw [if_neg h, if_neg]
    intro hmem
    apply h
    rcases List.mem_cons.mp hmem with hsame | hmem
    · exact .inl (kvKey_injective hsame)
    · exact .inr (kvKey_injective (List.mem_singleton.mp hmem))

theorem fetch_written {s : Store} {key : Text} {content : Content} {bytes : Bytes}
    (h : Msgpack.packb content.toValue = some bytes) :
    fetch (written s key bytes) key = .ok (some content.toValue) := by
  rw [fetch, get_written, if_pos rfl]
  dsimp only
  rw [Content.unpackb_toValue h]
  dsimp only
  rw [isMissing_toValue]
  rfl

end Records

namespace Publisher

variable {α β : Type}

-- What has come of a publish: a value or an exception, unless it was cut off before, and the
-- store it leaves.
def playOn (p : Publisher α) (fates : List Fate) (s : Store) :
    Option (Except Exn α × List Fate) × Store :=
  Prog.play answer p.run fates s

theorem playOn_pure (value : α) (fates : List Fate) (s : Store) :
    (pure value : Publisher α).playOn fates s = (some (.ok value, fates), s) := rfl

theorem playOn_throw (exn : Exn) (fates : List Fate) (s : Store) :
    (throw exn : Publisher α).playOn fates s = (some (.error exn, fates), s) := rfl

theorem playOn_ask_nil (cmd : ClientCmd) (f : ClientReply cmd → Publisher β) (s : Store) :
    (ask cmd >>= f).playOn [] s = (none, s) := rfl

theorem playOn_ask_cons (cmd : ClientCmd) (f : ClientReply cmd → Publisher β) (fate : Fate)
    (fates : List Fate) (s : Store) :
    (ask cmd >>= f).playOn (fate :: fates) s =
      (f (answer fate cmd s).1).playOn fates (answer fate cmd s).2 := rfl

theorem playOn_bind_of_ok {p : Publisher α} {f : α → Publisher β} {fates rest : List Fate}
    {s s' : Store} {value : α} (h : p.playOn fates s = (some (.ok value, rest), s')) :
    (p >>= f).playOn fates s = (f value).playOn rest s' := by
  have hrun : (p >>= f).run = p.run >>= ExceptT.bindCont f := rfl
  rw [playOn, hrun, Prog.play_bind_of_some h]
  rfl

-- It has not come to its end, or not without an exception.
def Stops (outcome : Option (Except Exn α × List Fate)) : Prop :=
  ∀ value rest, outcome ≠ some (.ok value, rest)

theorem playOn_bind_of_stops {p : Publisher α} {f : α → Publisher β} {fates : List Fate}
    {s : Store} (h : Stops (p.playOn fates s).1) :
    Stops ((p >>= f).playOn fates s).1 ∧
      ((p >>= f).playOn fates s).2 = (p.playOn fates s).2 := by
  have hrun : (p >>= f).run = p.run >>= ExceptT.bindCont f := rfl
  cases hplay : p.playOn fates s with
  | mk outcome s' =>
      rw [hplay] at h
      cases outcome with
      | none =>
          rw [playOn, hrun, Prog.play_bind_of_none hplay]
          exact ⟨fun _ _ hsome => (nomatch hsome), rfl⟩
      | some reached =>
          obtain ⟨result, rest⟩ := reached
          cases result with
          | ok value => exact absurd rfl (h value rest)
          | error exn =>
              rw [playOn, hrun, Prog.play_bind_of_some hplay]
              exact ⟨fun _ _ hsome => (nomatch hsome), rfl⟩

end Publisher

section Puts

-- How far a series of writes gets, and what is left for what comes after it if it gets through.
-- A write that is done counts even where nobody hears of it or it is not read again.
def advance : List Fate → List (Text × Content) → List (Text × Bytes) × Option (List Fate)
  | fates, [] => ([], some fates)
  | [], _ :: _ => ([], none)
  | fate :: fates, (key, content) :: plan =>
      match Msgpack.packb content.toValue with
      | none => ([], none)
      | some bytes =>
          match fate, fates with
          | .refused, _ => ([], none)
          | .works, .works :: rest =>
              ((key, bytes) :: (advance rest plan).1, (advance rest plan).2)
          | _, _ => ([(key, bytes)], none)

def putAll : List (Text × Content) → Publisher Unit
  | [] => pure ()
  | (key, content) :: plan => do
      putAndVerify key content
      putAll plan

def writeAll (s : Store) (writes : List (Text × Bytes)) : Store :=
  writes.foldl (fun s write => written s write.1 write.2) s

theorem putAll_append (plan plan' : List (Text × Content)) :
    putAll (plan ++ plan') = (putAll plan >>= fun _ => putAll plan') := by
  induction plan with
  | nil => rfl
  | cons put plan ih =>
      obtain ⟨key, content⟩ := put
      rw [List.cons_append, putAll, putAll, ih, bind_assoc]

-- One write and its reading back, however the two calls fare.
theorem putAndVerify_playOn (key : Text) (content : Content) (fates : List Fate) (s : Store) :
    (∃ rest bytes, fates = .works :: .works :: rest ∧ Msgpack.packb content.toValue = some bytes ∧
      (putAndVerify key content).playOn fates s =
        (some (.ok (), rest), written s key bytes)) ∨
    (Publisher.Stops ((putAndVerify key content).playOn fates s).1 ∧
      ∀ plan, (advance fates ((key, content) :: plan)).2 = none ∧
        ((putAndVerify key content).playOn fates s).2 =
          writeAll s (advance fates ((key, content) :: plan)).1) := by
  cases fates with
  | nil => exact .inr ⟨fun _ _ hsome => (nomatch hsome), fun plan => ⟨rfl, rfl⟩⟩
  | cons fate fates =>
      unfold putAndVerify
      rw [Publisher.playOn_ask_cons]
      simp only [advance, answer]
      cases hpack : Msgpack.packb content.toValue with
      | none => exact .inr ⟨fun _ _ hsome => (nomatch hsome), fun plan => ⟨rfl, rfl⟩⟩
      | some bytes =>
          cases fate with
          | refused => exact .inr ⟨fun _ _ hsome => (nomatch hsome), fun plan => ⟨rfl, rfl⟩⟩
          | unheard => exact .inr ⟨fun _ _ hsome => (nomatch hsome), fun plan => ⟨rfl, rfl⟩⟩
          | works =>
              cases fates with
              | nil => exact .inr ⟨fun _ _ hsome => (nomatch hsome), fun plan => ⟨rfl, rfl⟩⟩
              | cons again rest =>
                  cases again with
                  | refused => exact .inr ⟨fun _ _ hsome => (nomatch hsome), fun plan => ⟨rfl, rfl⟩⟩
                  | unheard => exact .inr ⟨fun _ _ hsome => (nomatch hsome), fun plan => ⟨rfl, rfl⟩⟩
                  | works =>
                      refine .inl ⟨rest, bytes, rfl, rfl, ?_⟩
                      rw [Publisher.playOn_ask_cons]
                      simp only [answer, ite_true]
                      rw [fetch_written hpack]
                      simp only [Option.bind_some, Content.ofValue_toValue, ite_true]
                      rfl

-- A series of writes leaves what was done of it, and goes on when all of it was.
theorem putAll_playOn (plan : List (Text × Content)) (fates : List Fate) (s : Store) :
    ((putAll plan).playOn fates s).2 = writeAll s (advance fates plan).1 ∧
      (∀ rest, (advance fates plan).2 = some rest →
        ((putAll plan).playOn fates s).1 = some (.ok (), rest)) ∧
      ((advance fates plan).2 = none → Publisher.Stops ((putAll plan).playOn fates s).1) := by
  induction plan generalizing fates s with
  | nil =>
      have hadvance : advance fates [] = ([], some fates) := by
        cases fates with
        | nil => rfl
        | cons fate fates => rfl
      rw [hadvance]
      refine ⟨rfl, ?_, ?_⟩
      · intro rest hrest
        rw [← Option.some.inj hrest]
        rfl
      · intro hnone
        cases hnone
  | cons put plan ih =>
      obtain ⟨key, content⟩ := put
      rw [putAll]
      rcases putAndVerify_playOn key content fates s with
        ⟨rest, bytes, rfl, hpack, hplay⟩ | ⟨hstops, hleft⟩
      · rw [Publisher.playOn_bind_of_ok hplay]
        have hadvance : advance (.works :: .works :: rest) ((key, content) :: plan) =
            ((key, bytes) :: (advance rest plan).1, (advance rest plan).2) := by
          simp only [advance, hpack]
        rw [hadvance]
        exact ih rest (written s key bytes)
      · obtain ⟨hstops', hstore⟩ := @Publisher.playOn_bind_of_stops _ _ _
          (fun _ => putAll plan) fates s hstops
        obtain ⟨hnone, hwrites⟩ := hleft plan
        rw [hstore, hwrites]
        refine ⟨rfl, ?_, fun _ => hstops'⟩
        intro rest hrest
        rw [hnone] at hrest
        cases hrest

end Puts

end Stra2us.Publish
