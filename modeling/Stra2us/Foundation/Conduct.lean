import Stra2us.Foundation.Interleave

namespace Stra2us.Foundation

-- What a program may issue next depends on the phase it is in, and each reply moves
-- it to another phase.
structure Conduct (Cmd : Type) (Reply : Cmd → Type) (φ : Type) where
  next : φ → (cmd : Cmd) → Reply cmd → φ
  may : φ → Cmd → Prop

section Conduct

variable {Cmd : Type} {Reply : Cmd → Type} {φ ρ α β σ : Type}

def Conduct.phase (conduct : Conduct Cmd Reply φ) (start : φ) (events : List (Event Cmd Reply)) :
    φ :=
  events.foldl (fun phase event => conduct.next phase event.cmd event.reply) start

theorem Conduct.phase_snoc (conduct : Conduct Cmd Reply φ) (start : φ)
    (events : List (Event Cmd Reply)) (event : Event Cmd Reply) :
    conduct.phase start (events ++ [event]) =
      conduct.next (conduct.phase start events) event.cmd event.reply := by
  simp [phase, List.foldl_append]

namespace Prog

-- Whatever the replies, the program keeps to the conduct and ends where it should.
def Obeys (conduct : Conduct Cmd Reply φ) (ends : φ → α → Prop) : φ → Prog Cmd Reply α → Prop
  | phase, .done value => ends phase value
  | phase, .call cmd rest =>
      conduct.may phase cmd ∧ ∀ reply, (rest reply).Obeys conduct ends (conduct.next phase cmd reply)

variable {conduct : Conduct Cmd Reply φ}

theorem Obeys.mono {ends more : φ → α → Prop} {phase : φ} {p : Prog Cmd Reply α}
    (h : p.Obeys conduct ends phase) (hmore : ∀ phase value, ends phase value → more phase value) :
    p.Obeys conduct more phase := by
  induction p generalizing phase with
  | done value => exact hmore _ _ h
  | call cmd rest ih => exact ⟨h.1, fun reply => ih reply (h.2 reply)⟩

-- The second part starts in the phase the first part ends in.
theorem Obeys.bind {ends : φ → β → Prop} {phase : φ} {p : Prog Cmd Reply α}
    {f : α → Prog Cmd Reply β}
    (h : p.Obeys conduct (fun phase value => (f value).Obeys conduct ends phase) phase) :
    (p >>= f).Obeys conduct ends phase := by
  induction p generalizing phase with
  | done value => exact h
  | call cmd rest ih => exact ⟨h.1, fun reply => ih reply (h.2 reply)⟩

-- Commands that leave the phase alone.
theorem Issues.obeys {allowed : Cmd → Prop} {phase : φ} {p : Prog Cmd Reply α}
    (h : p.Issues allowed) (hmay : ∀ cmd, allowed cmd → conduct.may phase cmd)
    (hnext : ∀ cmd reply, allowed cmd → conduct.next phase cmd reply = phase) :
    p.Obeys conduct (fun ended _ => ended = phase) phase := by
  induction p with
  | done value => rfl
  | call cmd rest ih =>
      refine ⟨hmay cmd h.1, ?_⟩
      intro reply
      rw [hnext cmd reply h.1]
      exact ih reply (h.2 reply)

end Prog

variable {exec : (cmd : Cmd) → σ → Reply cmd × σ} {program : ρ → Prog Cmd Reply α}
  {drift : σ → σ → Prop}
  {condition : System Cmd Reply ρ α σ → System Cmd Reply ρ α σ → Prop}

-- Each thread is in the phase its own events have brought it to, and what is left of
-- its program keeps to its conduct from there.
def System.Conducted (conduct : ρ → Conduct Cmd Reply φ) (start : ρ → φ)
    (ends : ρ → φ → α → Prop) (s : System Cmd Reply ρ α σ) : Prop :=
  ∀ (i : Nat) (request : ρ) (p : Prog Cmd Reply α), s.threads[i]? = some (request, p) →
    p.Obeys (conduct request) (ends request)
      ((conduct request).phase (start request) (s.eventsOf i))

theorem Run.conducted {world : σ} {s : System Cmd Reply ρ α σ} {conduct : ρ → Conduct Cmd Reply φ}
    {start : ρ → φ} {ends : ρ → φ → α → Prop}
    (hrun : Run exec program drift condition (.initial world) s)
    (hprogram : ∀ request, (program request).Obeys (conduct request) (ends request) (start request)) :
    (∀ event ∈ s.history, event.thread < s.threads.length) ∧ s.Conducted conduct start ends := by
  refine hrun.invariant (fun a => (∀ event ∈ a.history, event.thread < a.threads.length) ∧
    a.Conducted conduct start ends) ?_ ?_
  · simp [System.initial, System.Conducted]
  · rintro a b hs - ⟨hfresh, hthreads⟩
    refine ⟨hs.fresh hfresh, hs.threads (P := fun _ request (p : Prog Cmd Reply α) events =>
      p.Obeys (conduct request) (ends request) ((conduct request).phase (start request) events))
      hthreads hfresh ?_ ?_⟩
    · intro i request
      exact hprogram request
    · intro i request cmd next _ hp
      rw [Conduct.phase_snoc]
      exact hp.2 _

end Conduct

end Stra2us.Foundation
