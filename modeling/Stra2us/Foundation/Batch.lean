import Mathlib.Data.List.Forall2

namespace Stra2us.Foundation

-- Steps taken one after the other until one fails. What was done by then stays done.
section Batch

variable {ι σ ε : Type} (step : ι → σ → Except ε Unit × σ)

def batch : List ι → σ → Except ε Unit × σ
  | [], s => (.ok (), s)
  | item :: rest, s =>
      match step item s with
      | (.ok (), s') => batch rest s'
      | (.error e, s') => (.error e, s')

-- The batch gets as far as this item, with what comes before it done.
def Reaches (items before : List ι) (item : ι) (s : σ) : Prop :=
  (∃ after, items = before ++ item :: after) ∧ (batch step before s).1 = .ok ()

variable {step}

@[simp] theorem batch_nil (s : σ) : batch step [] s = (.ok (), s) := rfl

theorem batch_cons_ok {item : ι} {rest : List ι} {s : σ} (h : (step item s).1 = .ok ()) :
    batch step (item :: rest) s = batch step rest (step item s).2 := by
  rw [batch]
  cases hstep : step item s with
  | mk result s' =>
      rw [hstep] at h
      subst h
      rfl

theorem batch_cons_error {item : ι} {rest : List ι} {s : σ} {e : ε}
    (h : (step item s).1 = .error e) : batch step (item :: rest) s = (.error e, (step item s).2) := by
  rw [batch]
  cases hstep : step item s with
  | mk result s' =>
      rw [hstep] at h
      subst h
      rfl

theorem batch_append_ok {a b : List ι} {s : σ} (h : (batch step a s).1 = .ok ()) :
    batch step (a ++ b) s = batch step b (batch step a s).2 := by
  induction a generalizing s with
  | nil => rfl
  | cons item rest ih =>
      cases hstep : (step item s).1 with
      | ok value =>
          rw [batch_cons_ok hstep] at h ⊢
          rw [List.cons_append, batch_cons_ok hstep]
          exact ih h
      | error e =>
          rw [batch_cons_error hstep] at h
          cases h

theorem batch_append_error {a b : List ι} {s : σ} {e : ε} (h : (batch step a s).1 = .error e) :
    batch step (a ++ b) s = batch step a s := by
  induction a generalizing s with
  | nil => cases h
  | cons item rest ih =>
      cases hstep : (step item s).1 with
      | ok value =>
          rw [batch_cons_ok hstep] at h ⊢
          rw [List.cons_append, batch_cons_ok hstep]
          exact ih h
      | error e' => rw [List.cons_append, batch_cons_error hstep, batch_cons_error hstep]

-- A batch that fails stops at its first failing item.
theorem exists_reaches_of_error {items : List ι} {s : σ} {e : ε}
    (h : (batch step items s).1 = .error e) :
    ∃ before item, Reaches step items before item s ∧
      (step item (batch step before s).2).1 = .error e ∧
      (batch step items s).2 = (step item (batch step before s).2).2 := by
  induction items generalizing s with
  | nil => cases h
  | cons item rest ih =>
      cases hstep : (step item s).1 with
      | ok value =>
          rw [batch_cons_ok hstep] at h
          obtain ⟨before, bad, ⟨⟨after, rfl⟩, hbefore⟩, hbad, hstate⟩ := ih h
          refine ⟨item :: before, bad, ⟨⟨after, rfl⟩, ?_⟩, ?_, ?_⟩
          · rw [batch_cons_ok hstep]
            exact hbefore
          · rw [batch_cons_ok hstep]
            exact hbad
          · rw [batch_cons_ok hstep, batch_cons_ok hstep]
            exact hstate
      | error e' =>
          rw [batch_cons_error hstep] at h
          obtain rfl := Except.error.inj h
          refine ⟨[], item, ⟨⟨rest, rfl⟩, rfl⟩, hstep, ?_⟩
          rw [batch_cons_error hstep]
          rfl

-- Where each reached item goes through exactly when it fits, the batch goes through
-- exactly when all items fit.
theorem batch_ok_iff {fits : ι → Prop} {items : List ι} {s : σ}
    (hfits : ∀ before item, Reaches step items before item s →
      ((step item (batch step before s).2).1 = .ok () ↔ fits item)) :
    (batch step items s).1 = .ok () ↔ ∀ item ∈ items, fits item := by
  constructor
  · intro hok item hitem
    obtain ⟨before, after, rfl⟩ := List.append_of_mem hitem
    cases hbefore : (batch step before s).1 with
    | ok value =>
        refine (hfits before item ⟨⟨after, rfl⟩, hbefore⟩).mp ?_
        rw [batch_append_ok hbefore] at hok
        cases hstep : (step item (batch step before s).2).1 with
        | ok value => rfl
        | error e =>
            rw [batch_cons_error hstep] at hok
            cases hok
    | error e =>
        rw [batch_append_error hbefore, hbefore] at hok
        cases hok
  · intro hall
    cases hrun : (batch step items s).1 with
    | ok value => rfl
    | error e =>
        obtain ⟨before, item, hreaches, hbad, -⟩ := exists_reaches_of_error hrun
        obtain ⟨after, hsplit⟩ := hreaches.1
        have hgood := (hfits before item hreaches).mpr (hall item (by rw [hsplit]; simp))
        rw [hbad] at hgood
        cases hgood

-- What every step keeps is kept by the batch.
theorem batch_keeps (keeps : σ → σ → Prop) {items : List ι} (hrefl : ∀ s, keeps s s)
    (htrans : ∀ a b c, keeps a b → keeps b c → keeps a c)
    (hstep : ∀ item ∈ items, ∀ s, keeps s (step item s).2) (s : σ) :
    keeps s (batch step items s).2 := by
  induction items generalizing s with
  | nil => exact hrefl s
  | cons item rest ih =>
      have hfirst := hstep item (by simp) s
      cases hresult : (step item s).1 with
      | ok value =>
          rw [batch_cons_ok hresult]
          exact htrans _ _ _ hfirst (ih (fun i hi => hstep i (List.mem_cons_of_mem _ hi)) _)
      | error e =>
          rw [batch_cons_error hresult]
          exact hfirst

-- An invariant of the steps is one of the batch.
theorem batch_invariant {inv : σ → Prop} {items : List ι}
    (hstep : ∀ item ∈ items, ∀ s, inv s → inv (step item s).2) {s : σ} (h : inv s) :
    inv (batch step items s).2 :=
  batch_keeps (fun a b => inv a → inv b) (fun _ ha => ha) (fun _ _ _ hab hbc ha => hbc (hab ha))
    hstep s h

-- Of an item that is reached it may be used that what came before it kept the invariant.
theorem batch_invariant_of_reaches {inv : σ → Prop} {items : List ι} {s : σ}
    (hstep : ∀ before item, Reaches step items before item s → inv (batch step before s).2 →
      inv (step item (batch step before s).2).2) (h : inv s) : inv (batch step items s).2 := by
  induction items generalizing s with
  | nil => exact h
  | cons item rest ih =>
      have hfirst : inv (step item s).2 := hstep [] item ⟨⟨rest, rfl⟩, rfl⟩ h
      cases hresult : (step item s).1 with
      | error e =>
          rw [batch_cons_error hresult]
          exact hfirst
      | ok value =>
          rw [batch_cons_ok hresult]
          refine ih (fun before next hreaches hinv => ?_) hfirst
          obtain ⟨⟨after, rfl⟩, hbefore⟩ := hreaches
          have hnext := hstep (item :: before) next
          rw [batch_cons_ok hresult] at hnext
          refine hnext ⟨⟨after, rfl⟩, ?_⟩ hinv
          rw [batch_cons_ok hresult]
          exact hbefore

-- What is reached after an item is reached in the whole batch.
theorem Reaches.shift {before after first : List ι} {item next : ι} {s : σ}
    (hbefore : (batch step before s).1 = .ok ())
    (hitem : (step item (batch step before s).2).1 = .ok ())
    (h : Reaches step after first next (step item (batch step before s).2).2) :
    Reaches step (before ++ item :: after) (before ++ item :: first) next s ∧
      (batch step (before ++ item :: first) s).2 =
        (batch step first (step item (batch step before s).2).2).2 := by
  obtain ⟨⟨rest, rfl⟩, hfirst⟩ := h
  have hrun : batch step (before ++ item :: first) s =
      batch step first (step item (batch step before s).2).2 := by
    rw [batch_append_ok hbefore, batch_cons_ok hitem]
  rw [hrun]
  refine ⟨⟨⟨rest, by simp⟩, ?_⟩, rfl⟩
  rw [hrun]
  exact hfirst

end Batch

-- A map that may fail at any item.
section Mapping

theorem mapM_eq_map {m : Type → Type} [Monad m] [LawfulMonad m] {ι α : Type} {f : ι → m α}
    {g : ι → α} {items : List ι} (h : ∀ item ∈ items, f item = pure (g item)) :
    items.mapM f = pure (items.map g) := by
  induction items with
  | nil => rfl
  | cons item rest ih =>
      have hrest := ih fun i hi => h i (List.mem_cons_of_mem _ hi)
      rw [List.mapM_cons, h item (by simp), hrest, pure_bind, pure_bind]
      rfl

variable {ι α ε : Type} {f : ι → Except ε α} {items : List ι}

theorem mem_of_mapM {results : List α} (h : items.mapM f = .ok results) {result : α}
    (hmem : result ∈ results) : ∃ item ∈ items, f item = .ok result := by
  induction items generalizing results with
  | nil =>
      obtain rfl := Except.ok.inj h
      cases hmem
  | cons item rest ih =>
      rw [List.mapM_cons] at h
      cases hitem : f item with
      | error e =>
          rw [hitem] at h
          cases h
      | ok first =>
          cases hrest : rest.mapM f with
          | error e =>
              rw [hitem, hrest] at h
              cases h
          | ok others =>
              rw [hitem, hrest] at h
              obtain rfl := Except.ok.inj h
              rcases List.mem_cons.mp hmem with rfl | hmem
              · exact ⟨item, by simp, hitem⟩
              · obtain ⟨other, hother, hresult⟩ := ih hrest hmem
                exact ⟨other, List.mem_cons_of_mem _ hother, hresult⟩

-- The results stand in the place of their items.
theorem mapM_ok_iff {results : List α} : items.mapM f = .ok results ↔
    List.Forall₂ (fun item result => f item = .ok result) items results := by
  induction items generalizing results with
  | nil =>
      rw [List.forall₂_nil_left_iff]
      exact ⟨fun h => (Except.ok.inj h).symm, fun h => by rw [h]; rfl⟩
  | cons item rest ih =>
      rw [List.mapM_cons, List.forall₂_cons_left_iff]
      constructor
      · intro h
        cases hitem : f item with
        | error e =>
            rw [hitem] at h
            cases h
        | ok first =>
            cases hrest : rest.mapM f with
            | error e =>
                rw [hitem, hrest] at h
                cases h
            | ok others =>
                rw [hitem, hrest] at h
                exact ⟨first, others, rfl, ih.mp hrest, (Except.ok.inj h).symm⟩
      · rintro ⟨first, others, hitem, hothers, rfl⟩
        rw [hitem, ih.mpr hothers]
        rfl

theorem exists_mapM_iff : (∃ results, items.mapM f = .ok results) ↔
    ∀ item ∈ items, ∃ result, f item = .ok result := by
  induction items with
  | nil => exact ⟨fun _ item hitem => (nomatch hitem), fun _ => ⟨[], rfl⟩⟩
  | cons item rest ih =>
      simp only [mapM_ok_iff, List.forall₂_cons_left_iff] at ih ⊢
      rw [List.forall_mem_cons, ← ih]
      constructor
      · rintro ⟨-, first, others, hitem, hothers, rfl⟩
        exact ⟨⟨first, hitem⟩, others, hothers⟩
      · rintro ⟨⟨first, hitem⟩, others, hothers⟩
        exact ⟨_, first, others, hitem, hothers, rfl⟩

-- Items that all come to something are related to what they come to.
theorem exists_mapM_forall₂ {related : α → ι → Prop}
    (h : ∀ item ∈ items, ∃ result, f item = .ok result ∧ related result item) :
    ∃ results, items.mapM f = .ok results ∧ List.Forall₂ related results items := by
  induction items with
  | nil => exact ⟨[], rfl, .nil⟩
  | cons item rest ih =>
      obtain ⟨result, hresult, hrelated⟩ := h item (by simp)
      obtain ⟨results, hresults, hall⟩ := ih fun i hi => h i (List.mem_cons_of_mem _ hi)
      refine ⟨result :: results, ?_, .cons hrelated hall⟩
      rw [List.mapM_cons, hresult, hresults]
      rfl

theorem mem_mapM_iff {results : List α} (h : items.mapM f = .ok results) {result : α} :
    result ∈ results ↔ ∃ item ∈ items, f item = .ok result := by
  have hall := mapM_ok_iff.mp h
  clear h
  induction hall with
  | nil => simp
  | cons hitem _ ih => simp [ih, hitem, eq_comm]

end Mapping

end Stra2us.Foundation
