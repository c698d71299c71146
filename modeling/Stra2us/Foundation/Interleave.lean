import Stra2us.Foundation.Program
import Mathlib.Logic.Relation
import Mathlib.Data.List.Basic

namespace Stra2us.Foundation

section Interleave

variable {Cmd : Type} {Reply : Cmd → Type} {ρ α σ : Type}

-- One command that a thread has had executed, with the reply it got.
structure Event (Cmd : Type) (Reply : Cmd → Type) where
  thread : Nat
  cmd : Cmd
  reply : Reply cmd

-- Threads are numbered in the order they start; each keeps the request it serves
-- and what is left of its program. The history is oldest first.
structure System (Cmd : Type) (Reply : Cmd → Type) (ρ α σ : Type) where
  world : σ
  threads : List (ρ × Prog Cmd Reply α)
  history : List (Event Cmd Reply)

namespace System

def initial (world : σ) : System Cmd Reply ρ α σ :=
  ⟨world, [], []⟩

def start (s : System Cmd Reply ρ α σ) (request : ρ) (program : Prog Cmd Reply α) :
    System Cmd Reply ρ α σ :=
  { s with threads := s.threads ++ [(request, program)] }

def turn (exec : (cmd : Cmd) → σ → Reply cmd × σ) (s : System Cmd Reply ρ α σ) (i : Nat)
    (request : ρ) (cmd : Cmd) (next : Reply cmd → Prog Cmd Reply α) :
    System Cmd Reply ρ α σ where
  world := (exec cmd s.world).2
  threads := s.threads.set i (request, next (exec cmd s.world).1)
  history := s.history ++ [⟨i, cmd, (exec cmd s.world).1⟩]

-- The commands one thread has had executed, in order.
def eventsOf (s : System Cmd Reply ρ α σ) (i : Nat) : List (Event Cmd Reply) :=
  s.history.filter fun event => event.thread = i

end System

-- Any thread may take the next turn, a new one may start at any time, and the
-- environment may move the world between two turns.
inductive Step (exec : (cmd : Cmd) → σ → Reply cmd × σ) (program : ρ → Prog Cmd Reply α)
    (drift : σ → σ → Prop) : System Cmd Reply ρ α σ → System Cmd Reply ρ α σ → Prop
  | start (s : System Cmd Reply ρ α σ) (request : ρ) :
      Step exec program drift s (s.start request (program request))
  | turn (s : System Cmd Reply ρ α σ) (i : Nat) (request : ρ) (cmd : Cmd)
      (next : Reply cmd → Prog Cmd Reply α)
      (hi : s.threads[i]? = some (request, .call cmd next)) :
      Step exec program drift s (s.turn exec i request cmd next)
  | drift (s : System Cmd Reply ρ α σ) (world : σ) (h : drift s.world world) :
      Step exec program drift s { s with world := world }

-- A run is any number of steps, each of which meets the condition.
def Run (exec : (cmd : Cmd) → σ → Reply cmd × σ) (program : ρ → Prog Cmd Reply α)
    (drift : σ → σ → Prop)
    (condition : System Cmd Reply ρ α σ → System Cmd Reply ρ α σ → Prop) :
    System Cmd Reply ρ α σ → System Cmd Reply ρ α σ → Prop :=
  Relation.ReflTransGen fun s s' => Step exec program drift s s' ∧ condition s s'

variable {exec : (cmd : Cmd) → σ → Reply cmd × σ} {program : ρ → Prog Cmd Reply α}
  {drift : σ → σ → Prop}
  {condition : System Cmd Reply ρ α σ → System Cmd Reply ρ α σ → Prop}

theorem Run.invariant {s s' : System Cmd Reply ρ α σ} (inv : System Cmd Reply ρ α σ → Prop)
    (hrun : Run exec program drift condition s s') (h : inv s)
    (hstep : ∀ a b, Step exec program drift a b → condition a b → inv a → inv b) : inv s' := by
  induction hrun with
  | refl => exact h
  | tail _ hs ih => exact hstep _ _ hs.1 hs.2 ih

-- What holds of each thread, given its number and the commands it has had
-- executed, is kept when it holds of a fresh program and each turn hands it on.
theorem Step.threads {P : Nat → ρ → Prog Cmd Reply α → List (Event Cmd Reply) → Prop}
    {s s' : System Cmd Reply ρ α σ} (hs : Step exec program drift s s')
    (h : ∀ i request p, s.threads[i]? = some (request, p) → P i request p (s.eventsOf i))
    (hfresh : ∀ event ∈ s.history, event.thread < s.threads.length)
    (hnew : ∀ i request, P i request (program request) [])
    (hturn : ∀ i request cmd next, s.threads[i]? = some (request, .call cmd next) →
      P i request (.call cmd next) (s.eventsOf i) →
      P i request (next (exec cmd s.world).1)
        (s.eventsOf i ++ [⟨i, cmd, (exec cmd s.world).1⟩])) :
    ∀ i request p, s'.threads[i]? = some (request, p) → P i request p (s'.eventsOf i) := by
  cases hs with
  | start request =>
      intro i r p hp
      simp only [System.start] at hp
      rcases Nat.lt_trichotomy i s.threads.length with hi | rfl | hi
      · rw [List.getElem?_append_left hi] at hp
        exact h i r p hp
      · simp only [List.getElem?_append_right (Nat.le_refl _), Nat.sub_self,
          List.getElem?_cons_zero, Option.some.injEq, Prod.mk.injEq] at hp
        obtain ⟨rfl, rfl⟩ := hp
        have he : (s.start request (program request)).eventsOf s.threads.length = [] := by
          apply List.filter_eq_nil_iff.mpr
          intro event he
          have := hfresh event he
          simp only [decide_eq_true_eq]
          omega
        rw [he]
        exact hnew _ _
      · have hlen : (s.threads ++ [(request, program request)]).length ≤ i := by simp; omega
        simp [List.getElem?_eq_none hlen] at hp
  | turn j request cmd next hj =>
      intro i r p hp
      simp only [System.turn] at hp
      by_cases hij : j = i
      · subst hij
        have hlt : j < s.threads.length := by
          by_contra hge
          simp [List.getElem?_eq_none (Nat.le_of_not_lt hge)] at hj
        simp only [List.getElem?_set_self hlt, Option.some.injEq, Prod.mk.injEq] at hp
        obtain ⟨rfl, rfl⟩ := hp
        have he : (s.turn exec j request cmd next).eventsOf j =
            s.eventsOf j ++ [⟨j, cmd, (exec cmd s.world).1⟩] := by
          simp [System.eventsOf, System.turn, List.filter_append]
        rw [he]
        exact hturn j request cmd next hj (h j request _ hj)
      · rw [List.getElem?_set_ne hij] at hp
        have he : (s.turn exec j request cmd next).eventsOf i = s.eventsOf i := by
          simp [System.eventsOf, System.turn, List.filter_append, hij]
        rw [he]
        exact h i r p hp
  | drift world hd => exact h

-- Events belong to threads that have started.
theorem Step.fresh {s s' : System Cmd Reply ρ α σ} (hs : Step exec program drift s s')
    (h : ∀ event ∈ s.history, event.thread < s.threads.length) :
    ∀ event ∈ s'.history, event.thread < s'.threads.length := by
  cases hs with
  | start request =>
      intro event he
      have := h event he
      simp only [System.start, List.length_append, List.length_cons, List.length_nil]
      omega
  | turn j request cmd next hj =>
      intro event he
      simp only [System.turn, List.mem_append, List.mem_singleton] at he
      simp only [System.turn, List.length_set]
      rcases he with he | rfl
      · exact h event he
      · by_contra hge
        simp [List.getElem?_eq_none (Nat.le_of_not_lt hge)] at hj
  | drift world hd => exact h

-- What is left of a program once it has been given these replies.
inductive After : Prog Cmd Reply α → List (Event Cmd Reply) → Prog Cmd Reply α → Prop
  | nil (p : Prog Cmd Reply α) : After p [] p
  | call (thread : Nat) (cmd : Cmd) (next : Reply cmd → Prog Cmd Reply α) (reply : Reply cmd)
      (events : List (Event Cmd Reply)) (q : Prog Cmd Reply α) (h : After (next reply) events q) :
      After (.call cmd next) (⟨thread, cmd, reply⟩ :: events) q

@[simp] theorem after_done {value : α} {events : List (Event Cmd Reply)} {q : Prog Cmd Reply α} :
    After (.done value) events q ↔ events = [] ∧ q = .done value := by
  constructor
  · rintro ⟨⟩
    exact ⟨rfl, rfl⟩
  · rintro ⟨rfl, rfl⟩
    exact After.nil _

theorem after_call {cmd : Cmd} {next : Reply cmd → Prog Cmd Reply α}
    {events : List (Event Cmd Reply)} {q : Prog Cmd Reply α} :
    After (.call cmd next) events q ↔
      (events = [] ∧ q = .call cmd next) ∨
      ∃ thread reply rest, events = ⟨thread, cmd, reply⟩ :: rest ∧ After (next reply) rest q := by
  constructor
  · intro h
    cases h with
    | nil => exact Or.inl ⟨rfl, rfl⟩
    | call thread _ _ reply rest _ h => exact Or.inr ⟨thread, reply, rest, rfl, h⟩
  · rintro (⟨rfl, rfl⟩ | ⟨thread, reply, rest, rfl, h⟩)
    · exact After.nil _
    · exact After.call thread cmd next reply rest q h

-- A program that has come to its end has had its first command executed.
@[simp] theorem after_call_done {cmd : Cmd} {next : Reply cmd → Prog Cmd Reply α}
    {events : List (Event Cmd Reply)} {value : α} :
    After (.call cmd next) events (.done value) ↔
      ∃ thread reply rest,
        events = ⟨thread, cmd, reply⟩ :: rest ∧ After (next reply) rest (.done value) := by
  rw [after_call]
  simp

theorem After.snoc {p : Prog Cmd Reply α} {events : List (Event Cmd Reply)} {cmd : Cmd}
    {next : Reply cmd → Prog Cmd Reply α} (h : After p events (.call cmd next)) (thread : Nat)
    (reply : Reply cmd) : After p (events ++ [⟨thread, cmd, reply⟩]) (next reply) := by
  generalize hq : Prog.call cmd next = q at h
  induction h with
  | nil p =>
      subst hq
      exact After.call thread cmd next reply [] _ (After.nil _)
  | call thread' cmd' next' reply' events' q' h ih =>
      exact After.call thread' cmd' next' reply' _ _ (ih hq)

-- A program in two parts comes to its end when each part does.
theorem after_bind_done {β : Type} {p : Prog Cmd Reply β} {f : β → Prog Cmd Reply α}
    {events : List (Event Cmd Reply)} {value : α} :
    After (p >>= f) events (.done value) ↔
      ∃ first second mid, events = first ++ second ∧ After p first (.done mid) ∧
        After (f mid) second (.done value) := by
  induction p generalizing events with
  | done mid =>
      constructor
      · intro h
        exact ⟨[], events, mid, rfl, After.nil _, h⟩
      · rintro ⟨first, second, mid', rfl, hp, hf⟩
        obtain ⟨rfl, he⟩ := after_done.mp hp
        obtain rfl := Prog.done.inj he
        exact hf
  | call cmd next ih =>
      simp only [Prog.call_bind, after_call_done, ih]
      constructor
      · rintro ⟨thread, reply, rest, rfl, first, second, mid, rfl, hp, hf⟩
        exact ⟨⟨thread, cmd, reply⟩ :: first, second, mid, rfl,
          ⟨thread, reply, first, rfl, hp⟩, hf⟩
      · rintro ⟨first, second, mid, rfl, ⟨thread, reply, rest, rfl, hp⟩, hf⟩
        exact ⟨thread, reply, rest ++ second, rfl, rest, second, mid, rfl, hp, hf⟩

theorem After.issues {allowed : Cmd → Prop} {p q : Prog Cmd Reply α}
    {events : List (Event Cmd Reply)} (h : After p events q) (hp : p.Issues allowed) :
    q.Issues allowed := by
  induction h with
  | nil p => exact hp
  | call thread cmd next reply events q _ ih => exact ih (hp.2 reply)

-- In every run each thread stands where the replies it got have taken its program.
theorem Run.threads {s s' : System Cmd Reply ρ α σ} (hrun : Run exec program drift condition s s')
    (hfresh : ∀ event ∈ s.history, event.thread < s.threads.length)
    (h : ∀ i request p, s.threads[i]? = some (request, p) →
      After (program request) (s.eventsOf i) p) :
    (∀ event ∈ s'.history, event.thread < s'.threads.length) ∧
      ∀ i request p, s'.threads[i]? = some (request, p) →
        After (program request) (s'.eventsOf i) p := by
  refine hrun.invariant (fun a => (∀ event ∈ a.history, event.thread < a.threads.length) ∧
      ∀ i request p, a.threads[i]? = some (request, p) →
        After (program request) (a.eventsOf i) p) ⟨hfresh, h⟩ ?_
  rintro a b hs - ⟨hf, ht⟩
  refine ⟨hs.fresh hf, hs.threads (P := fun _ request p events =>
    After (program request) events p) ht hf ?_ ?_⟩
  · intro i request
    exact After.nil _
  · intro i request cmd next _ hp
    exact hp.snoc i _

theorem Run.threads_of_initial {world : σ} {s : System Cmd Reply ρ α σ}
    (hrun : Run exec program drift condition (.initial world) s) (i : Nat) (request : ρ)
    (p : Prog Cmd Reply α) (h : s.threads[i]? = some (request, p)) :
    After (program request) (s.eventsOf i) p :=
  (hrun.threads (by simp [System.initial]) (by simp [System.initial])).2 i request p h

-- What every request's program may issue bounds what any thread issues next.
theorem Run.issues {allowed : Cmd → Prop} {world : σ} {s : System Cmd Reply ρ α σ}
    (hrun : Run exec program drift condition (.initial world) s)
    (hprogram : ∀ request, (program request).Issues allowed) (i : Nat) (request : ρ)
    (p : Prog Cmd Reply α) (h : s.threads[i]? = some (request, p)) : p.Issues allowed :=
  (hrun.threads_of_initial i request p h).issues (hprogram request)

-- An invariant of the world and the history is kept when each allowed command and
-- each move of the environment keeps it.
theorem Run.world {allowed : Cmd → Prop} {world : σ} {s : System Cmd Reply ρ α σ}
    (inv : σ → List (Event Cmd Reply) → Prop) (hrun : Run exec program drift condition (.initial world) s)
    (hprogram : ∀ request, (program request).Issues allowed) (h : inv world [])
    (hturn : ∀ w history i cmd, allowed cmd → inv w history →
      inv (exec cmd w).2 (history ++ [⟨i, cmd, (exec cmd w).1⟩]))
    (hdrift : ∀ w w' history, drift w w' → inv w history → inv w' history) :
    inv s.world s.history := by
  induction hrun with
  | refl => exact h
  | tail hprev hs ih =>
      cases hs.1 with
      | start request => exact ih
      | turn i request cmd next hi =>
          exact hturn _ _ i cmd (Run.issues hprev hprogram i request _ hi).1 ih
      | drift world hd => exact hdrift _ _ _ hd ih

section Alone

-- A thread that is given all the turns comes to its end.
theorem Run.finish {s₀ s : System Cmd Reply ρ α σ}
    (hrun : Run exec program drift (fun _ _ => True) s₀ s) {i : Nat} {request : ρ}
    {p : Prog Cmd Reply α} (hi : s.threads[i]? = some (request, p)) :
    ∃ s', Run exec program drift (fun _ _ => True) s₀ s' ∧ s'.world = (p.run exec s.world).2 := by
  induction p generalizing s with
  | done value => exact ⟨s, hrun, rfl⟩
  | call cmd next ih =>
      have hlt : i < s.threads.length := by
        by_contra hge
        simp [List.getElem?_eq_none (Nat.le_of_not_lt hge)] at hi
      have hturn : (s.turn exec i request cmd next).threads[i]? =
          some (request, next (exec cmd s.world).1) := by
        simp [System.turn, List.getElem?_set_self hlt]
      exact ih _ (hrun.tail ⟨Step.turn s i request cmd next hi, trivial⟩) hturn

theorem Run.serve {s₀ s : System Cmd Reply ρ α σ}
    (hrun : Run exec program drift (fun _ _ => True) s₀ s) (request : ρ) :
    ∃ s', Run exec program drift (fun _ _ => True) s₀ s' ∧
      s'.world = ((program request).run exec s.world).2 := by
  have hstart := hrun.tail ⟨Step.start s request, trivial⟩
  have hi : (s.start request (program request)).threads[s.threads.length]? =
      some (request, program request) := by
    simp [System.start]
  exact Run.finish hstart hi

-- One request served with nobody else there, where the condition is only on what starts.
theorem Run.single {world : σ} (request : ρ)
    (hstart : condition (.initial world) ((System.initial world).start request (program request)))
    (hturn : ∀ s s', s'.threads.length = s.threads.length → condition s s') :
    ∃ s, Run exec program drift condition (.initial world) s ∧
      s.threads = [(request, .done ((program request).run exec world).1)] ∧
      s.world = ((program request).run exec world).2 := by
  have hall : ∀ (p : Prog Cmd Reply α) (s : System Cmd Reply ρ α σ),
      Run exec program drift condition (.initial world) s → s.threads = [(request, p)] →
      ∃ s', Run exec program drift condition (.initial world) s' ∧
        s'.threads = [(request, .done (p.run exec s.world).1)] ∧
        s'.world = (p.run exec s.world).2 := by
    intro p
    induction p with
    | done value =>
        intro s hrun hthreads
        exact ⟨s, hrun, hthreads, rfl⟩
    | call cmd next ih =>
        intro s hrun hthreads
        have hi : s.threads[0]? = some (request, .call cmd next) := by
          rw [hthreads]
          rfl
        have hlength : (s.turn exec 0 request cmd next).threads.length = s.threads.length := by
          rw [System.turn, List.length_set]
        refine ih _ (s.turn exec 0 request cmd next)
          (hrun.tail ⟨Step.turn s 0 request cmd next hi, hturn _ _ hlength⟩) ?_
        rw [System.turn, hthreads]
        rfl
  exact hall _ _ (Relation.ReflTransGen.refl.tail ⟨Step.start _ request, hstart⟩) rfl

-- What each turn of a thread keeps, all its turns together keep.
theorem Run.keeps {s₀ s : System Cmd Reply ρ α σ}
    (hrun : Run exec program drift (fun _ _ => True) s₀ s) {i : Nat} {request : ρ}
    {p : Prog Cmd Reply α} (hi : s.threads[i]? = some (request, p)) (keeps : σ → σ → Prop)
    (hrefl : ∀ w, keeps w w) (htrans : ∀ a b c, keeps a b → keeps b c → keeps a c)
    (hturn : ∀ s, Run exec program drift (fun _ _ => True) s₀ s → ∀ cmd next,
      s.threads[i]? = some (request, .call cmd next) → keeps s.world (exec cmd s.world).2) :
    keeps s.world (p.run exec s.world).2 := by
  induction p generalizing s with
  | done value => exact hrefl _
  | call cmd next ih =>
      have hlt : i < s.threads.length := by
        by_contra hge
        simp [List.getElem?_eq_none (Nat.le_of_not_lt hge)] at hi
      have hthread : (s.turn exec i request cmd next).threads[i]? =
          some (request, next (exec cmd s.world).1) := by
        simp [System.turn, List.getElem?_set_self hlt]
      have hrest := ih _ (hrun.tail ⟨Step.turn s i request cmd next hi, trivial⟩) hthread
      exact htrans _ _ _ (hturn s hrun cmd next hi) hrest

end Alone

section Play

-- One step of a run that is written down.
inductive Move (ρ σ : Type)
  | start (request : ρ)
  | turn (i : Nat)
  | drift (world : σ)

def System.move (exec : (cmd : Cmd) → σ → Reply cmd × σ) (program : ρ → Prog Cmd Reply α)
    (s : System Cmd Reply ρ α σ) : Move ρ σ → System Cmd Reply ρ α σ
  | .start request => s.start request (program request)
  | .turn i =>
      match s.threads[i]? with
      | some (request, .call cmd next) => s.turn exec i request cmd next
      | _ => s
  | .drift world => { s with world := world }

def System.play (exec : (cmd : Cmd) → σ → Reply cmd × σ) (program : ρ → Prog Cmd Reply α)
    (s : System Cmd Reply ρ α σ) : List (Move ρ σ) → System Cmd Reply ρ α σ
  | [] => s
  | move :: rest => (s.move exec program move).play exec program rest

-- Every move of the list may be taken where it stands.
def System.Plays (exec : (cmd : Cmd) → σ → Reply cmd × σ) (program : ρ → Prog Cmd Reply α)
    (drift : σ → σ → Prop)
    (condition : System Cmd Reply ρ α σ → System Cmd Reply ρ α σ → Prop)
    (s : System Cmd Reply ρ α σ) : List (Move ρ σ) → Prop
  | [] => True
  | move :: rest =>
      (match move with
        | .start _ => True
        | .turn i => ∃ request cmd next, s.threads[i]? = some (request, .call cmd next)
        | .drift world => drift s.world world) ∧
      condition s (s.move exec program move) ∧
      (s.move exec program move).Plays exec program drift condition rest

theorem Run.play {s : System Cmd Reply ρ α σ} {moves : List (Move ρ σ)}
    (h : s.Plays exec program drift condition moves) :
    Run exec program drift condition s (s.play exec program moves) := by
  induction moves generalizing s with
  | nil => exact Relation.ReflTransGen.refl
  | cons move rest ih =>
      obtain ⟨hmove, hcond, hrest⟩ := h
      refine Relation.ReflTransGen.head ⟨?_, hcond⟩ (ih hrest)
      cases move with
      | start request => exact Step.start s request
      | turn i =>
          obtain ⟨request, cmd, next, hi⟩ := hmove
          have hm : s.move exec program (.turn i) = s.turn exec i request cmd next := by
            simp only [System.move, hi]
          rw [hm]
          exact Step.turn s i request cmd next hi
      | drift world => exact Step.drift s world hmove

def Prog.isCall : Prog Cmd Reply α → Bool
  | .done _ => false
  | .call _ _ => true

theorem Prog.done_of_not_isCall {p : Prog Cmd Reply α} (h : p.isCall = false) :
    ∃ value, p = .done value := by
  cases p with
  | done value => exact ⟨value, rfl⟩
  | call cmd next => cases h

-- The same, computed; `check` decides what is asked of a step from the move.
def System.checkPlay (exec : (cmd : Cmd) → σ → Reply cmd × σ) (program : ρ → Prog Cmd Reply α)
    (check : System Cmd Reply ρ α σ → Move ρ σ → Bool) (s : System Cmd Reply ρ α σ) :
    List (Move ρ σ) → Bool
  | [] => true
  | move :: rest =>
      (match move with
        | .start _ => true
        | .turn i => (s.threads[i]?).any fun thread => thread.2.isCall
        | .drift _ => false) &&
      check s move && (s.move exec program move).checkPlay exec program check rest

theorem Run.of_checkPlay {check : System Cmd Reply ρ α σ → Move ρ σ → Bool}
    (hcheck : ∀ s move, check s move → condition s (s.move exec program move))
    {s : System Cmd Reply ρ α σ} (moves : List (Move ρ σ))
    (h : s.checkPlay exec program check moves) :
    Run exec program drift condition s (s.play exec program moves) := by
  apply Run.play
  induction moves generalizing s with
  | nil => trivial
  | cons move rest ih =>
      simp only [System.checkPlay, Bool.and_eq_true] at h
      obtain ⟨⟨hmove, hcond⟩, hrest⟩ := h
      refine ⟨?_, hcheck s move hcond, ih hrest⟩
      cases move with
      | start request => trivial
      | drift world => cases hmove
      | turn i =>
          simp only [Option.any_eq_true] at hmove
          obtain ⟨⟨request, p⟩, hi, hcall⟩ := hmove
          cases p with
          | done value => cases hcall
          | call cmd next => exact ⟨request, cmd, next, hi⟩

-- A condition on the turns alone.
def OnTurn (exec : (cmd : Cmd) → σ → Reply cmd × σ)
    (C : System Cmd Reply ρ α σ → Nat → Cmd → Prop) (s s' : System Cmd Reply ρ α σ) : Prop :=
  ∀ i request cmd next, s.threads[i]? = some (request, .call cmd next) →
    s' = s.turn exec i request cmd next → C s i cmd

def checkTurn (C : System Cmd Reply ρ α σ → Nat → Cmd → Prop)
    [∀ s i cmd, Decidable (C s i cmd)] (s : System Cmd Reply ρ α σ) : Move ρ σ → Bool
  | .turn i =>
      match s.threads[i]? with
      | some (_, .call cmd _) => decide (C s i cmd)
      | _ => true
  | _ => true

theorem onTurn_of_history {C : System Cmd Reply ρ α σ → Nat → Cmd → Prop}
    {s s' : System Cmd Reply ρ α σ} (h : s'.history = s.history) : OnTurn exec C s s' := by
  intro i request cmd next _ hturn
  have hlen := congrArg (fun a => a.history.length) hturn
  simp [System.turn, h] at hlen

-- A turn is made by one thread with one command only.
theorem onTurn_turn {C : System Cmd Reply ρ α σ → Nat → Cmd → Prop}
    {s : System Cmd Reply ρ α σ} {i : Nat} {request : ρ} {cmd : Cmd}
    {next : Reply cmd → Prog Cmd Reply α} (hi : s.threads[i]? = some (request, .call cmd next)) :
    OnTurn exec C s (s.turn exec i request cmd next) ↔ C s i cmd := by
  constructor
  · intro h
    exact h i request cmd next hi rfl
  · intro h j r cmd' next' hj hturn
    have hhistory := congrArg System.history hturn
    simp only [System.turn, List.append_cancel_left_eq, List.cons.injEq, and_true] at hhistory
    obtain rfl : i = j := congrArg Event.thread hhistory
    rw [hi] at hj
    simp only [Option.some.injEq, Prod.mk.injEq, Prog.call.injEq] at hj
    obtain ⟨-, rfl, -⟩ := hj
    exact h

theorem onTurn_move {C : System Cmd Reply ρ α σ → Nat → Cmd → Prop}
    [∀ s i cmd, Decidable (C s i cmd)] (s : System Cmd Reply ρ α σ) (move : Move ρ σ)
    (h : checkTurn C s move) : OnTurn exec C s (s.move exec program move) := by
  cases move with
  | start request => exact onTurn_of_history rfl
  | drift world => exact onTurn_of_history rfl
  | turn i =>
      rcases hi : s.threads[i]? with _ | ⟨request, value | ⟨cmd, next⟩⟩
      · have hm : s.move exec program (.turn i) = s := by simp only [System.move, hi]
        rw [hm]
        exact onTurn_of_history rfl
      · have hm : s.move exec program (.turn i) = s := by simp only [System.move, hi]
        rw [hm]
        exact onTurn_of_history rfl
      · have hm : s.move exec program (.turn i) = s.turn exec i request cmd next := by
          simp only [System.move, hi]
        simp only [checkTurn, hi, decide_eq_true_eq] at h
        rw [hm]
        exact (onTurn_turn hi).mpr h

-- A run of which nothing is asked.
theorem Run.of_free_play {s : System Cmd Reply ρ α σ} (moves : List (Move ρ σ))
    (h : s.checkPlay exec program (fun _ _ => true) moves) :
    Run exec program drift (fun _ _ => True) s (s.play exec program moves) :=
  Run.of_checkPlay (fun _ _ _ => trivial) moves h

end Play

end Interleave

end Stra2us.Foundation
