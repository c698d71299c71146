import Mathlib.Data.List.Perm.Basic

namespace Stra2us.Foundation

-- A list of rules, of which the first one that applies decides.
section FirstMatch

variable {α : Type*} (applies grants : α → Prop)

-- The first rule that applies grants.
def FirstMatch (rules : List α) : Prop :=
  ∃ before rule after, rules = before ++ rule :: after ∧ (∀ r ∈ before, ¬ applies r) ∧
    applies rule ∧ grants rule

def SomeMatch (rules : List α) : Prop :=
  ∃ rule ∈ rules, applies rule ∧ grants rule

-- Some rule grants, but one that does not comes before every one that does.
def Shadowed (rules : List α) : Prop :=
  ∃ before rule after, rules = before ++ rule :: after ∧ (∀ r ∈ before, ¬ applies r) ∧
    applies rule ∧ ¬ grants rule ∧ SomeMatch applies grants after

-- Rules that apply disagree.
def Mixed (rules : List α) : Prop :=
  SomeMatch applies grants rules ∧ SomeMatch applies (fun r => ¬ grants r) rules

variable {applies grants} {rules : List α} {rule : α}

theorem not_firstMatch_nil : ¬ FirstMatch applies grants ([] : List α) := by
  rintro ⟨before, rule, after, hnil, -⟩
  simp at hnil

theorem firstMatch_cons_of_applies (h : applies rule) :
    FirstMatch applies grants (rule :: rules) ↔ grants rule := by
  constructor
  · rintro ⟨before, first, after, hsplit, hbefore, -, hgrants⟩
    cases before with
    | nil =>
        obtain ⟨rfl, -⟩ := List.cons.inj hsplit
        exact hgrants
    | cons head before =>
        obtain ⟨rfl, -⟩ := List.cons.inj hsplit
        exact absurd h (hbefore rule (by simp))
  · intro hgrants
    exact ⟨[], rule, rules, rfl, by simp, h, hgrants⟩

theorem firstMatch_cons_of_not (h : ¬ applies rule) :
    FirstMatch applies grants (rule :: rules) ↔ FirstMatch applies grants rules := by
  constructor
  · rintro ⟨before, first, after, hsplit, hbefore, happlies, hgrants⟩
    cases before with
    | nil =>
        obtain ⟨rfl, -⟩ := List.cons.inj hsplit
        exact absurd happlies h
    | cons head before =>
        obtain ⟨rfl, htail⟩ := List.cons.inj hsplit
        exact ⟨before, first, after, htail, fun r hr => hbefore r (List.mem_cons_of_mem _ hr),
          happlies, hgrants⟩
  · rintro ⟨before, first, after, rfl, hbefore, happlies, hgrants⟩
    refine ⟨rule :: before, first, after, rfl, ?_, happlies, hgrants⟩
    intro r hr
    rcases List.mem_cons.mp hr with rfl | hr
    · exact h
    · exact hbefore r hr

theorem someMatch_append (a b : List α) :
    SomeMatch applies grants (a ++ b) ↔ SomeMatch applies grants a ∨ SomeMatch applies grants b := by
  simp [SomeMatch, or_and_right, exists_or]

theorem someMatch_cons :
    SomeMatch applies grants (rule :: rules) ↔
      (applies rule ∧ grants rule) ∨ SomeMatch applies grants rules := by
  simp [SomeMatch]

theorem someMatch_perm {other : List α} (h : other.Perm rules) :
    SomeMatch applies grants other ↔ SomeMatch applies grants rules := by
  unfold SomeMatch
  simp only [h.mem_iff]

theorem FirstMatch.someMatch (h : FirstMatch applies grants rules) :
    SomeMatch applies grants rules := by
  obtain ⟨before, rule, after, rfl, -, happlies, hgrants⟩ := h
  exact ⟨rule, by simp, happlies, hgrants⟩

-- Whatever some rule grants is granted by the first, or that one is in the way.
theorem someMatch_iff : SomeMatch applies grants rules ↔
    FirstMatch applies grants rules ∨ Shadowed applies grants rules := by
  constructor
  · intro h
    induction rules with
    | nil =>
        obtain ⟨rule, hmem, -⟩ := h
        cases hmem
    | cons rule rules ih =>
        by_cases happlies : applies rule
        · by_cases hgrants : grants rule
          · exact .inl ((firstMatch_cons_of_applies happlies).mpr hgrants)
          · rcases someMatch_cons.mp h with ⟨-, hrule⟩ | htail
            · exact absurd hrule hgrants
            · exact .inr ⟨[], rule, rules, rfl, by simp, happlies, hgrants, htail⟩
        · rcases someMatch_cons.mp h with ⟨hrule, -⟩ | htail
          · exact absurd hrule happlies
          · rcases ih htail with hfirst | ⟨before, r, after, rfl, hbefore, hrest⟩
            · exact .inl ((firstMatch_cons_of_not happlies).mpr hfirst)
            · refine .inr ⟨rule :: before, r, after, rfl, ?_, hrest⟩
              intro x hx
              rcases List.mem_cons.mp hx with rfl | hx
              · exact happlies
              · exact hbefore x hx
  · rintro (hfirst | ⟨before, rule, after, rfl, -, -, -, hsome⟩)
    · exact hfirst.someMatch
    · exact (someMatch_append _ _).mpr (.inr (someMatch_cons.mpr (.inr hsome)))

theorem firstMatch_append (a b : List α) : FirstMatch applies grants (a ++ b) ↔
    FirstMatch applies grants a ∨ ((∀ r ∈ a, ¬ applies r) ∧ FirstMatch applies grants b) := by
  induction a with
  | nil =>
      simp only [List.nil_append, List.not_mem_nil, false_implies, implies_true, true_and]
      exact ⟨.inr, fun h => h.resolve_left not_firstMatch_nil⟩
  | cons rule a ih =>
      by_cases happlies : applies rule
      · rw [List.cons_append, firstMatch_cons_of_applies happlies,
          firstMatch_cons_of_applies happlies]
        simp [happlies]
      · rw [List.cons_append, firstMatch_cons_of_not happlies, firstMatch_cons_of_not happlies, ih]
        simp [happlies]

theorem Shadowed.not_firstMatch (h : Shadowed applies grants rules) :
    ¬ FirstMatch applies grants rules := by
  obtain ⟨before, rule, after, rfl, hbefore, happlies, hdenies, -⟩ := h
  rw [firstMatch_append, firstMatch_cons_of_applies happlies]
  rintro (hfirst | ⟨-, hgrants⟩)
  · obtain ⟨r, hr, happ, -⟩ := hfirst.someMatch
    exact hbefore r hr happ
  · exact hdenies hgrants

-- Deciding by the first rule is deciding by any rule exactly when none is shadowed.
theorem firstMatch_iff_someMatch : (FirstMatch applies grants rules ↔
    SomeMatch applies grants rules) ↔ ¬ Shadowed applies grants rules := by
  constructor
  · intro h hshadowed
    exact hshadowed.not_firstMatch (h.mpr (someMatch_iff.mpr (.inr hshadowed)))
  · intro hnot
    rw [someMatch_iff]
    exact ⟨.inl, fun h => h.resolve_right hnot⟩

theorem Shadowed.mixed (h : Shadowed applies grants rules) : Mixed applies grants rules := by
  have hsome := someMatch_iff.mpr (.inr h)
  obtain ⟨before, rule, after, rfl, -, happlies, hdenies, -⟩ := h
  exact ⟨hsome, rule, by simp, happlies, hdenies⟩

theorem mixed_perm {other : List α} (h : other.Perm rules) :
    Mixed applies grants other ↔ Mixed applies grants rules := by
  unfold Mixed
  rw [someMatch_perm h, someMatch_perm h]

-- A rule can be brought to the front.
theorem exists_perm_cons (h : rule ∈ rules) : ∃ rest, (rule :: rest).Perm rules := by
  obtain ⟨before, after, rfl⟩ := List.append_of_mem h
  exact ⟨before ++ after, List.perm_middle.symm⟩

-- The order plays no part exactly when the rules that apply agree.
theorem firstMatch_perm_iff : (∀ other : List α, other.Perm rules →
    (FirstMatch applies grants other ↔ FirstMatch applies grants rules)) ↔
      ¬ Mixed applies grants rules := by
  constructor
  · rintro h ⟨⟨granting, hg, happ, hgrants⟩, denying, hd, happ', hdenies⟩
    obtain ⟨restG, hpermG⟩ := exists_perm_cons hg
    obtain ⟨restD, hpermD⟩ := exists_perm_cons hd
    have hfirst := (h _ hpermG).mp ((firstMatch_cons_of_applies happ).mpr hgrants)
    exact hdenies ((firstMatch_cons_of_applies happ').mp ((h _ hpermD).mpr hfirst))
  · intro hnot other hperm
    have hrules : ¬ Shadowed applies grants rules := fun hs => hnot hs.mixed
    have hother : ¬ Shadowed applies grants other := fun hs => hnot ((mixed_perm hperm).mp hs.mixed)
    rw [firstMatch_iff_someMatch.mpr hrules, firstMatch_iff_someMatch.mpr hother,
      someMatch_perm hperm]

-- A rule put in takes an answer away only in front of the rule that gave it.
theorem firstMatch_insert_iff {a b : List α} : (FirstMatch applies grants (a ++ b) →
    FirstMatch applies grants (a ++ rule :: b)) ↔
      ¬ (applies rule ∧ ¬ grants rule ∧ (∀ r ∈ a, ¬ applies r) ∧ FirstMatch applies grants b) := by
  rw [firstMatch_append, firstMatch_append]
  by_cases happlies : applies rule
  · rw [firstMatch_cons_of_applies happlies]
    constructor
    · rintro h ⟨-, hdenies, hnone, hfirst⟩
      rcases h (.inr ⟨hnone, hfirst⟩) with hbefore | ⟨-, hgrants⟩
      · obtain ⟨r, hr, happ, -⟩ := hbefore.someMatch
        exact hnone r hr happ
      · exact hdenies hgrants
    · rintro hnot (hbefore | ⟨hnone, hfirst⟩)
      · exact .inl hbefore
      · by_cases hgrants : grants rule
        · exact .inr ⟨hnone, hgrants⟩
        · exact absurd ⟨happlies, hgrants, hnone, hfirst⟩ hnot
  · rw [firstMatch_cons_of_not happlies]
    simp [happlies]

end FirstMatch

end Stra2us.Foundation
