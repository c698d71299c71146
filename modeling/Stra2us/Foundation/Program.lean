import Mathlib.Logic.Basic

namespace Stra2us.Foundation

-- A program asks its environment one command at a time and continues from the reply.
inductive Prog (Cmd : Type) (Reply : Cmd → Type) (α : Type) : Type
  | done (value : α)
  | call (cmd : Cmd) (next : Reply cmd → Prog Cmd Reply α)

namespace Prog

variable {Cmd : Type} {Reply : Cmd → Type} {α β γ σ : Type}

protected def bind : Prog Cmd Reply α → (α → Prog Cmd Reply β) → Prog Cmd Reply β
  | .done value, f => f value
  | .call cmd next, f => .call cmd fun reply => (next reply).bind f

instance : Monad (Prog Cmd Reply) where
  pure := .done
  bind := Prog.bind

def perform (cmd : Cmd) : Prog Cmd Reply (Reply cmd) :=
  .call cmd .done

-- The whole program against an environment that nobody else touches.
def run (exec : (cmd : Cmd) → σ → Reply cmd × σ) : Prog Cmd Reply α → σ → α × σ
  | .done value, world => (value, world)
  | .call cmd next, world => (next (exec cmd world).1).run exec (exec cmd world).2

@[simp] theorem pure_eq (value : α) : (pure value : Prog Cmd Reply α) = .done value := rfl

@[simp] theorem done_bind (value : α) (f : α → Prog Cmd Reply β) :
    (Prog.done value >>= f) = f value := rfl

@[simp] theorem call_bind (cmd : Cmd) (next : Reply cmd → Prog Cmd Reply α)
    (f : α → Prog Cmd Reply β) :
    (Prog.call cmd next >>= f) = .call cmd fun reply => next reply >>= f := rfl

@[simp] theorem perform_bind (cmd : Cmd) (f : Reply cmd → Prog Cmd Reply β) :
    ((perform cmd : Prog Cmd Reply (Reply cmd)) >>= f) = .call cmd f := rfl

@[simp] theorem run_done (exec : (cmd : Cmd) → σ → Reply cmd × σ) (value : α) (world : σ) :
    (Prog.done value : Prog Cmd Reply α).run exec world = (value, world) := rfl

@[simp] theorem run_call (exec : (cmd : Cmd) → σ → Reply cmd × σ) (cmd : Cmd)
    (next : Reply cmd → Prog Cmd Reply α) (world : σ) :
    (Prog.call cmd next).run exec world =
      (next (exec cmd world).1).run exec (exec cmd world).2 := rfl

instance : LawfulMonad (Prog Cmd Reply) := LawfulMonad.mk' (Prog Cmd Reply)
  (by
    intro α p
    induction p with
    | done value => rfl
    | call cmd next ih => exact congrArg (Prog.call cmd) (funext ih))
  (fun _ _ => rfl)
  (by
    intro α β γ p f g
    induction p with
    | done value => rfl
    | call cmd next ih => exact congrArg (Prog.call cmd) (funext ih))

theorem run_bind (exec : (cmd : Cmd) → σ → Reply cmd × σ) (p : Prog Cmd Reply α)
    (f : α → Prog Cmd Reply β) (world : σ) :
    (p >>= f).run exec world =
      (f (p.run exec world).1).run exec (p.run exec world).2 := by
  induction p generalizing world with
  | done value => rfl
  | call cmd next ih => exact ih _ _

-- Every command the program can still issue satisfies the predicate, whatever
-- the replies.
def Issues (allowed : Cmd → Prop) : Prog Cmd Reply α → Prop
  | .done _ => True
  | .call cmd next => allowed cmd ∧ ∀ reply, (next reply).Issues allowed

@[simp] theorem issues_done (allowed : Cmd → Prop) (value : α) :
    (Prog.done value : Prog Cmd Reply α).Issues allowed := trivial

@[simp] theorem issues_call (allowed : Cmd → Prop) (cmd : Cmd)
    (next : Reply cmd → Prog Cmd Reply α) :
    (Prog.call cmd next).Issues allowed ↔ allowed cmd ∧ ∀ reply, (next reply).Issues allowed :=
  Iff.rfl

theorem Issues.bind {allowed : Cmd → Prop} {p : Prog Cmd Reply α} {f : α → Prog Cmd Reply β}
    (hp : p.Issues allowed) (hf : ∀ value, (f value).Issues allowed) :
    (p >>= f).Issues allowed := by
  induction p with
  | done value => exact hf value
  | call cmd next ih => exact ⟨hp.1, fun reply => ih reply (hp.2 reply)⟩

theorem Issues.mono {allowed more : Cmd → Prop} {p : Prog Cmd Reply α} (hp : p.Issues allowed)
    (h : ∀ cmd, allowed cmd → more cmd) : p.Issues more := by
  induction p with
  | done value => trivial
  | call cmd next ih => exact ⟨h cmd hp.1, fun reply => ih reply (hp.2 reply)⟩

-- A relation kept by each command the program issues is kept by the whole program.
theorem Issues.run {allowed : Cmd → Prop} {exec : (cmd : Cmd) → σ → Reply cmd × σ}
    (keeps : σ → σ → Prop) {p : Prog Cmd Reply α} (hp : p.Issues allowed)
    (hrefl : ∀ world, keeps world world)
    (htrans : ∀ a b c, keeps a b → keeps b c → keeps a c)
    (hstep : ∀ cmd world, allowed cmd → keeps world (exec cmd world).2) (world : σ) :
    keeps world (p.run exec world).2 := by
  induction p generalizing world with
  | done value => exact hrefl world
  | call cmd next ih =>
      exact htrans _ _ _ (hstep cmd world hp.1) (ih _ (hp.2 _) _)

-- Two worlds that are alike to each command the program issues give it the same result,
-- and are still alike when it has run.
theorem Issues.run_alike {allowed : Cmd → Prop} {exec : (cmd : Cmd) → σ → Reply cmd × σ}
    {alike : σ → σ → Prop} {p : Prog Cmd Reply α} (hp : p.Issues allowed)
    (hstep : ∀ cmd w v, allowed cmd → alike w v →
      (exec cmd w).1 = (exec cmd v).1 ∧ alike (exec cmd w).2 (exec cmd v).2)
    {w v : σ} (h : alike w v) :
    (p.run exec w).1 = (p.run exec v).1 ∧ alike (p.run exec w).2 (p.run exec v).2 := by
  induction p generalizing w v with
  | done value => exact ⟨rfl, h⟩
  | call cmd next ih =>
      obtain ⟨hreply, halike⟩ := hstep cmd w v hp.1 h
      rw [run_call, run_call, hreply]
      exact ih _ (hp.2 _) halike

end Prog

end Stra2us.Foundation
