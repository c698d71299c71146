import Mathlib.Data.List.Basic

namespace Stra2us.Foundation

-- A machine that takes one operation after another, each as a whole.
section Machine

variable {Op σ : Type} (apply : Op → σ → σ)

def after (ops : List Op) (s : σ) : σ :=
  ops.foldl (fun s op => apply op s) s

-- In every state that a run goes through, the first and the last included.
def Always (good : σ → Prop) : List Op → σ → Prop
  | [], s => good s
  | op :: rest, s => good s ∧ Always good rest (apply op s)

-- At every step of a run, with the state before it.
def Throughout (fits : Op → σ → Prop) : List Op → σ → Prop
  | [], _ => True
  | op :: rest, s => fits op s ∧ Throughout fits rest (apply op s)

variable {apply} {good : σ → Prop} {fits : Op → σ → Prop}

@[simp] theorem after_nil (s : σ) : after apply [] s = s := rfl

@[simp] theorem after_cons (op : Op) (rest : List Op) (s : σ) :
    after apply (op :: rest) s = after apply rest (apply op s) := rfl

theorem after_append (a b : List Op) (s : σ) :
    after apply (a ++ b) s = after apply b (after apply a s) := by
  unfold after
  exact List.foldl_append

theorem Always.first {ops : List Op} {s : σ} (h : Always apply good ops s) : good s := by
  cases ops with
  | nil => exact h
  | cons op rest => exact h.1

theorem always_iff {ops : List Op} {s : σ} :
    Always apply good ops s ↔ ∀ pre rest, ops = pre ++ rest → good (after apply pre s) := by
  induction ops generalizing s with
  | nil =>
      constructor
      · intro h pre rest hsplit
        obtain ⟨rfl, -⟩ := List.append_eq_nil_iff.mp hsplit.symm
        exact h
      · intro h
        exact h [] [] rfl
  | cons op ops ih =>
      constructor
      · intro h pre rest hsplit
        cases pre with
        | nil => exact h.1
        | cons first pre =>
            obtain ⟨rfl, hrest⟩ := List.cons.inj hsplit
            exact ih.mp h.2 pre rest hrest
      · intro h
        refine ⟨h [] (op :: ops) rfl, ih.mpr ?_⟩
        intro pre rest hsplit
        exact h (op :: pre) rest (by rw [hsplit, List.cons_append])

theorem Always.last {ops : List Op} {s : σ} (h : Always apply good ops s) :
    good (after apply ops s) :=
  always_iff.mp h ops [] (List.append_nil ops).symm

-- The invariant rule: what a step that fits keeps is kept by a run of such steps.
theorem always_of_throughout (hstep : ∀ op s, good s → fits op s → good (apply op s))
    {ops : List Op} {s : σ} (hgood : good s) (hfits : Throughout apply fits ops s) :
    Always apply good ops s := by
  induction ops generalizing s with
  | nil => exact hgood
  | cons op rest ih => exact ⟨hgood, ih (hstep op s hgood hfits.1) hfits.2⟩

-- Where only the steps that fit keep the invariant, a run that keeps it has no others. What
-- every step keeps may be used on the way.
theorem always_iff_throughout_of {base : σ → Prop} (hbase : ∀ op s, base s → base (apply op s))
    (hstep : ∀ op s, base s → good s → (good (apply op s) ↔ fits op s)) {ops : List Op} {s : σ}
    (hs : base s) (hgood : good s) :
    Always apply good ops s ↔ Throughout apply fits ops s := by
  induction ops generalizing s with
  | nil => exact iff_of_true hgood trivial
  | cons op rest ih =>
      constructor
      · intro h
        have hnext : good (apply op s) := Always.first h.2
        exact ⟨(hstep op s hs hgood).mp hnext, (ih (hbase op s hs) hnext).mp h.2⟩
      · intro h
        have hnext : good (apply op s) := (hstep op s hs hgood).mpr h.1
        exact ⟨hgood, (ih (hbase op s hs) hnext).mpr h.2⟩

theorem always_iff_throughout (hstep : ∀ op s, good s → (good (apply op s) ↔ fits op s))
    {ops : List Op} {s : σ} (hgood : good s) :
    Always apply good ops s ↔ Throughout apply fits ops s :=
  @always_iff_throughout_of Op σ apply good fits (fun _ => True) (fun _ _ _ => trivial)
    (fun op s _ => hstep op s) ops s trivial hgood

theorem Always.mono {better : σ → Prop} (hbetter : ∀ s, good s → better s) {ops : List Op} {s : σ}
    (h : Always apply good ops s) : Always apply better ops s := by
  induction ops generalizing s with
  | nil => exact hbetter s h
  | cons op rest ih => exact ⟨hbetter s h.1, ih h.2⟩

theorem Throughout.mono {more : Op → σ → Prop} (hmore : ∀ op s, fits op s → more op s)
    {ops : List Op} {s : σ} (h : Throughout apply fits ops s) : Throughout apply more ops s := by
  induction ops generalizing s with
  | nil => trivial
  | cons op rest ih => exact ⟨hmore op s h.1, ih h.2⟩

-- A condition on the operations alone.
theorem throughout_of_forall {ops : List Op} {s : σ} (h : ∀ op ∈ ops, ∀ s, fits op s) :
    Throughout apply fits ops s := by
  induction ops generalizing s with
  | nil => trivial
  | cons op rest ih =>
      exact ⟨h op (by simp) s, ih fun other hother => h other (List.mem_cons_of_mem op hother)⟩

end Machine

end Stra2us.Foundation
