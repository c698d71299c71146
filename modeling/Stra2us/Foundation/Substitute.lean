import Stra2us.Foundation.Text

namespace Stra2us.Foundation.Substitute

section Replace

-- The first occurrence, of a text that is not empty.
def replaceOnce (old new : Text) : Text → Text
  | [] => []
  | c :: rest =>
      if old <+: c :: rest then new ++ (c :: rest).drop old.length
      else c :: replaceOnce old new rest

-- All occurrences from the left, after so many characters that belong to the last one.
def replaceFrom (old new : Text) : Nat → Text → Text
  | _, [] => []
  | skipped + 1, _ :: rest => replaceFrom old new skipped rest
  | 0, c :: rest =>
      if old <+: c :: rest then new ++ replaceFrom old new (old.length - 1) rest
      else c :: replaceFrom old new 0 rest

def replaceAll (old new text : Text) : Text :=
  replaceFrom old new 0 text

end Replace

section Once

variable {old new before rest : Text} {c : Char}

theorem replaceOnce_skip (h : ¬ old <+: c :: rest) :
    replaceOnce old new (c :: rest) = c :: replaceOnce old new rest :=
  if_neg h

theorem replaceOnce_found (hne : old ≠ []) (rest : Text) :
    replaceOnce old new (old ++ rest) = new ++ rest := by
  obtain ⟨c, more, rfl⟩ := List.exists_cons_of_ne_nil hne
  rw [List.cons_append, replaceOnce, if_pos ⟨rest, rfl⟩]
  simp

-- No occurrence begins in the first text when the second one follows.
def Quiet (old before rest : Text) : Prop :=
  ∀ suffix, suffix ≠ [] → suffix <:+ before → ¬ old <+: suffix ++ rest

theorem quiet_nil (old rest : Text) : Quiet old [] rest := by
  intro suffix hne hsuffix
  exact absurd (List.suffix_nil.mp hsuffix) hne

theorem quiet_cons : Quiet old (c :: before) rest ↔
    ¬ old <+: c :: before ++ rest ∧ Quiet old before rest := by
  constructor
  · intro h
    exact ⟨h _ (List.cons_ne_nil c before) (List.suffix_refl _),
      fun suffix hne hsuffix => h suffix hne (hsuffix.trans (List.suffix_cons c before))⟩
  · rintro ⟨hhead, h⟩ suffix hne hsuffix
    rcases List.suffix_cons_iff.mp hsuffix with rfl | hsuffix
    · exact hhead
    · exact h suffix hne hsuffix

theorem quiet_append {a b : Text} (ha : Quiet old a (b ++ rest)) (hb : Quiet old b rest) :
    Quiet old (a ++ b) rest := by
  induction a with
  | nil => exact hb
  | cons c a ih =>
      obtain ⟨hhead, htail⟩ := quiet_cons.mp ha
      rw [List.cons_append, quiet_cons]
      exact ⟨by simpa using hhead, ih htail⟩

-- A text without the first character of what is looked for is quiet.
theorem quiet_of_notMem (h : c ∉ before) (more rest : Text) : Quiet (c :: more) before rest := by
  induction before with
  | nil => exact quiet_nil _ rest
  | cons d before ih =>
      rw [List.mem_cons, not_or] at h
      rw [quiet_cons]
      refine ⟨?_, ih h.2⟩
      intro hprefix
      exact h.1 (List.cons_prefix_cons.mp hprefix).1

theorem replaceOnce_behind (hne : old ≠ []) (h : Quiet old before (old ++ rest)) :
    replaceOnce old new (before ++ (old ++ rest)) = before ++ (new ++ rest) := by
  induction before with
  | nil => exact replaceOnce_found hne rest
  | cons c before ih =>
      obtain ⟨hhead, htail⟩ := quiet_cons.mp h
      rw [List.cons_append] at hhead ⊢
      rw [replaceOnce_skip hhead, ih htail, List.cons_append]

end Once

section All

variable {old new before rest text : Text} {c : Char}

theorem replaceFrom_length (before : Text) : replaceFrom old new before.length before = [] := by
  induction before with
  | nil => rfl
  | cons c before ih => exact ih

theorem prefix_guard (hc : c ∉ old) :
    old <+: before ++ c :: rest ↔ old <+: before := by
  constructor
  · rintro ⟨more, h⟩
    rcases List.append_eq_append_iff.mp h with ⟨back, rfl, -⟩ | ⟨front, rfl, hfront⟩
    · exact List.prefix_append old back
    · cases front with
      | nil => simp
      | cons d front =>
          obtain ⟨rfl, -⟩ := List.cons.inj hfront
          exact absurd (by simp) hc
  · exact fun h => h.trans (List.prefix_append before _)

-- No occurrence reaches over a character that is not in what is looked for.
theorem replaceFrom_guard (hc : c ∉ old) (hne : old ≠ []) {skipped : Nat}
    (hskipped : skipped ≤ before.length) (rest : Text) :
    replaceFrom old new skipped (before ++ c :: rest) =
      replaceFrom old new skipped before ++ c :: replaceAll old new rest := by
  induction before generalizing skipped with
  | nil =>
      obtain rfl : skipped = 0 := Nat.le_zero.mp hskipped
      have hnot : ¬ old <+: c :: rest := fun h =>
        hne (List.prefix_nil.mp ((@prefix_guard old [] rest c hc).mp h))
      exact if_neg hnot
  | cons d before ih =>
      cases skipped with
      | succ skipped => exact ih (Nat.le_of_succ_le_succ hskipped)
      | zero =>
          have hsame : old <+: d :: (before ++ c :: rest) ↔ old <+: d :: before :=
            @prefix_guard old (d :: before) rest c hc
          rw [List.cons_append, replaceFrom, replaceFrom]
          by_cases hprefix : old <+: d :: before
          · have hlength : old.length - 1 ≤ before.length := by
              have := hprefix.length_le
              rw [List.length_cons] at this
              omega
            rw [if_pos (hsame.mpr hprefix), if_pos hprefix, ih hlength, List.append_assoc]
          · rw [if_neg fun h => hprefix (hsame.mp h), if_neg hprefix, ih (Nat.zero_le _),
              List.cons_append]

theorem replaceAll_guard (hc : c ∉ old) (hne : old ≠ []) (before rest : Text) :
    replaceAll old new (before ++ c :: rest) =
      replaceAll old new before ++ c :: replaceAll old new rest :=
  replaceFrom_guard hc hne (Nat.zero_le _) rest

theorem replaceAll_self (hne : old ≠ []) : replaceAll old new old = new := by
  obtain ⟨c, more, rfl⟩ := List.exists_cons_of_ne_nil hne
  rw [replaceAll, replaceFrom, if_pos (List.prefix_refl _), List.length_cons,
    Nat.add_sub_cancel, replaceFrom_length, List.append_nil]

theorem replaceAll_absent (h : ¬ old <:+: text) : replaceAll old new text = text := by
  induction text with
  | nil => rfl
  | cons c text ih =>
      have hnot : ¬ old <+: c :: text := fun hprefix => h hprefix.isInfix
      have htail : ¬ old <:+: text := fun hin => h (hin.trans (List.suffix_cons c text).isInfix)
      rw [replaceAll, replaceFrom, if_neg hnot]
      exact congrArg (c :: ·) (ih htail)

end All

section Templates

-- Literal text, with a place to fill in front of each further piece of it.
structure Template (ι : Type) where
  first : Text
  rest : List (ι × Text)

variable {ι : Type}

def Template.fill (t : Template ι) (values : ι → Text) : Text :=
  t.first ++ t.rest.flatMap fun part => values part.1 ++ part.2

def Template.literals (t : Template ι) : List Text :=
  t.first :: t.rest.map Prod.snd

-- A literal keeps what is looked for from reaching over its ends, and does not hold it.
structure Guards (old literal : Text) : Prop where
  absent : ¬ old <:+: literal
  front : ∃ c rest, literal = c :: rest ∧ c ∉ old
  back : ∃ before c, literal = before ++ [c] ∧ c ∉ old

variable {old new : Text} {t : Template ι}

theorem replaceAll_literal {literal : Text} (hne : old ≠ []) (h : Guards old literal)
    (rest : Text) : replaceAll old new (literal ++ rest) = literal ++ replaceAll old new rest := by
  obtain ⟨before, c, rfl, hc⟩ := h.back
  have habsent : ¬ old <:+: before := fun hin =>
    h.absent (hin.trans (List.prefix_append before [c]).isInfix)
  rw [List.append_assoc, List.singleton_append, replaceAll_guard hc hne, replaceAll_absent habsent,
    List.append_assoc, List.singleton_append]

theorem replaceAll_place {literal : Text} (hne : old ≠ []) (h : Guards old literal)
    (value rest : Text) : replaceAll old new (value ++ (literal ++ rest)) =
      replaceAll old new value ++ (literal ++ replaceAll old new rest) := by
  have hliteral := @replaceAll_literal old new literal hne h rest
  obtain ⟨c, more, rfl, hc⟩ := h.front
  have hnil := @replaceAll_guard old new c hc hne [] (more ++ rest)
  rw [List.cons_append] at hliteral
  rw [List.cons_append, replaceAll_guard hc hne, ← hliteral]
  exact congrArg (replaceAll old new value ++ ·) hnil.symm

-- Replacing in a template that is filled replaces in each of the places on its own.
theorem replaceAll_fill (hne : old ≠ []) (h : ∀ literal ∈ t.literals, Guards old literal)
    (values : ι → Text) :
    replaceAll old new (t.fill values) = t.fill fun place => replaceAll old new (values place) := by
  obtain ⟨hfirst, hrest⟩ := List.forall_mem_cons.mp h
  unfold Template.fill
  rw [replaceAll_literal hne hfirst]
  refine congrArg (t.first ++ ·) ?_
  generalize t.rest = rest at hrest
  induction rest with
  | nil => rfl
  | cons part rest ih =>
      rw [List.map_cons, List.forall_mem_cons] at hrest
      rw [List.flatMap_cons, List.flatMap_cons, List.append_assoc, replaceAll_place hne hrest.1,
        ih hrest.2, List.append_assoc]

-- Replacements one after the other.
def chain (subs : List (Text × Text)) (text : Text) : Text :=
  subs.foldl (fun text sub => replaceAll sub.1 sub.2 text) text

theorem chain_fill {subs : List (Text × Text)} (hne : ∀ sub ∈ subs, sub.1 ≠ [])
    (h : ∀ sub ∈ subs, ∀ literal ∈ t.literals, Guards sub.1 literal) (values : ι → Text) :
    chain subs (t.fill values) = t.fill fun place => chain subs (values place) := by
  induction subs generalizing values with
  | nil => rfl
  | cons sub subs ih =>
      rw [List.forall_mem_cons] at hne h
      rw [chain, List.foldl_cons, replaceAll_fill hne.1 h.1]
      exact ih hne.2 h.2 _

theorem chain_absent {subs : List (Text × Text)} {text : Text}
    (h : ∀ sub ∈ subs, ¬ sub.1 <:+: text) : chain subs text = text := by
  induction subs with
  | nil => rfl
  | cons sub subs ih =>
      rw [List.forall_mem_cons] at h
      rw [chain, List.foldl_cons, replaceAll_absent h.1]
      exact ih h.2

-- What comes out of one placeholder: its text, as the later replacements leave it.
theorem chain_place {before after : List (Text × Text)} {sub : Text × Text} (hne : sub.1 ≠ [])
    (hbefore : ∀ earlier ∈ before, ¬ earlier.1 <:+: sub.1) :
    chain (before ++ sub :: after) sub.1 = chain after sub.2 := by
  rw [chain, List.foldl_append, List.foldl_cons]
  change chain after (replaceAll sub.1 sub.2 (chain before sub.1)) = _
  rw [chain_absent hbefore, replaceAll_self hne]

end Templates

end Stra2us.Foundation.Substitute
