import Stra2us.Foundation.Program

namespace Stra2us.Foundation

namespace Prog

section Interrupt

variable {Cmd : Type} {Reply : Cmd → Type} {α β φ σ : Type}
  {answer : φ → (cmd : Cmd) → σ → Reply cmd × σ}

-- A program whose calls fare as the list says, one after the other, and which is cut off
-- where the list ends. The value comes with what is left of the list.
def play (answer : φ → (cmd : Cmd) → σ → Reply cmd × σ) :
    Prog Cmd Reply α → List φ → σ → Option (α × List φ) × σ
  | .done value, fates, s => (some (value, fates), s)
  | .call _ _, [], s => (none, s)
  | .call cmd next, fate :: fates, s =>
      (next (answer fate cmd s).1).play answer fates (answer fate cmd s).2

@[simp] theorem play_done (value : α) (fates : List φ) (s : σ) :
    (Prog.done value : Prog Cmd Reply α).play answer fates s = (some (value, fates), s) := rfl

@[simp] theorem play_call_nil (cmd : Cmd) (next : Reply cmd → Prog Cmd Reply α) (s : σ) :
    (Prog.call cmd next).play answer [] s = (none, s) := rfl

@[simp] theorem play_call_cons (cmd : Cmd) (next : Reply cmd → Prog Cmd Reply α) (fate : φ)
    (fates : List φ) (s : σ) :
    (Prog.call cmd next).play answer (fate :: fates) s =
      (next (answer fate cmd s).1).play answer fates (answer fate cmd s).2 := rfl

theorem play_bind_of_some {p : Prog Cmd Reply α} {f : α → Prog Cmd Reply β} {fates rest : List φ}
    {s s' : σ} {value : α} (h : p.play answer fates s = (some (value, rest), s')) :
    (p >>= f).play answer fates s = (f value).play answer rest s' := by
  induction p generalizing fates s with
  | done v =>
      simp only [play_done, Prod.mk.injEq, Option.some.injEq] at h
      obtain ⟨⟨rfl, rfl⟩, rfl⟩ := h
      rfl
  | call cmd next ih =>
      cases fates with
      | nil => cases h
      | cons fate fates => exact ih _ h

theorem play_bind_of_none {p : Prog Cmd Reply α} {f : α → Prog Cmd Reply β} {fates : List φ}
    {s s' : σ} (h : p.play answer fates s = (none, s')) :
    (p >>= f).play answer fates s = (none, s') := by
  induction p generalizing fates s with
  | done v => cases h
  | call cmd next ih =>
      cases fates with
      | nil =>
          obtain rfl := (Prod.mk.inj h).2
          rfl
      | cons fate fates => exact ih _ h

-- What each call keeps, however it fares, the program keeps wherever it is cut off.
theorem Issues.play {allowed : Cmd → Prop} {p : Prog Cmd Reply α} (hp : p.Issues allowed)
    (inv : σ → Prop) (hstep : ∀ fate cmd s, allowed cmd → inv s → inv (answer fate cmd s).2)
    (fates : List φ) {s : σ} (h : inv s) : inv (p.play answer fates s).2 := by
  induction p generalizing fates s with
  | done value => exact h
  | call cmd next ih =>
      cases fates with
      | nil => exact h
      | cons fate fates => exact ih _ (hp.2 _) fates (hstep fate cmd s hp.1 h)

end Interrupt

end Prog

end Stra2us.Foundation
