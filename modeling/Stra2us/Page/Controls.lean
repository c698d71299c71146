import Stra2us.Page.Document

namespace Stra2us.Page.Markup

open Foundation Server
open Foundation.Html (Piece Token)
open Touched (Element ElementKind PlainKind Field Form)

section Groups

variable {els a b : List Element} {seen : List Text}

theorem settle_names (els : List Element) :
    (settle els).map Element.name = els.map Element.name := by
  induction els with
  | nil => rfl
  | cons el els ih => exact congrArg (el.name :: ·) ih

-- Radio buttons of different names do not know of each other.
theorem settle_append (h : ∀ el ∈ a, ∀ other ∈ b, other.name ≠ el.name) :
    settle (a ++ b) = settle a ++ settle b := by
  induction a with
  | nil => rfl
  | cons el a ih =>
      rw [List.forall_mem_cons] at h
      have hnone : (b.any fun other =>
          other.kind = .radio && other.name = el.name && other.checked) = false := by
        rw [List.any_eq_false]
        intro other hother
        simp [h.1 other hother]
      rw [List.cons_append, settle, List.any_append, hnone, Bool.or_false, ih h.2, settle,
        List.cons_append]

theorem numbered_append (seen : List Text) (a b : List Element) :
    numbered seen (a ++ b) = numbered seen a ++ numbered (seen ++ a.map Element.name) b := by
  induction a generalizing seen with
  | nil => rw [List.nil_append, List.map_nil, List.append_nil]; rfl
  | cons el a ih =>
      rw [List.cons_append, numbered, ih, numbered, List.map_cons, List.append_assoc,
        List.singleton_append, List.cons_append]

theorem numbered_fresh (more : List Text) (h : ∀ el ∈ els, el.name ∉ seen) :
    numbered (seen ++ more) els = numbered more els := by
  induction els generalizing more with
  | nil => rfl
  | cons el els ih =>
      rw [List.forall_mem_cons] at h
      rw [numbered, numbered, List.count_append, List.count_eq_zero_of_not_mem h.1, Nat.zero_add,
        List.append_assoc, ih (more ++ [el.name]) h.2]

-- Groups of controls whose names are apart are numbered and settled one by one.
theorem numbered_settle_flatten {groups : List (List Element)}
    (h : groups.Pairwise fun a b => ∀ el ∈ a, ∀ other ∈ b, other.name ≠ el.name) :
    numbered [] (settle groups.flatten) = (groups.map fun a => numbered [] (settle a)).flatten := by
  induction groups with
  | nil => rfl
  | cons first groups ih =>
      obtain ⟨hfirst, hrest⟩ := List.pairwise_cons.mp h
      have hapart : ∀ el ∈ first, ∀ other ∈ groups.flatten, other.name ≠ el.name := by
        intro el hel other hother
        obtain ⟨group, hgroup, hmem⟩ := List.mem_flatten.mp hother
        exact hfirst group hgroup el hel other hmem
      have hfresh : ∀ el ∈ settle groups.flatten, el.name ∉ (settle first).map Element.name := by
        intro el hel hmem
        have hname := List.mem_map_of_mem (f := Element.name) hel
        rw [settle_names] at hmem hname
        obtain ⟨other, hother, hsame⟩ := List.mem_map.mp hname
        obtain ⟨source, hsource, heq⟩ := List.mem_map.mp hmem
        exact hapart source hsource other hother (hsame.trans heq.symm)
      have hnumber := numbered_fresh [] hfresh
      rw [List.append_nil] at hnumber
      rw [List.flatten_cons, settle_append hapart, numbered_append, List.nil_append, hnumber,
        ih hrest, List.map_cons, List.flatten_cons]

end Groups

section Settled

variable {strOf : Value → Text} {pinned : List (Text × Text) → Text}
variable {name : Text} {var : Var} {current : Option Text} {fromDefault : Bool}

theorem lastCurrent_isSome (place : Nat) (choices : List (Value × Text)) :
    (lastCurrent strOf current place choices).isSome =
      choices.any fun choice => isCurrent (pyText strOf choice.1) current := by
  induction choices generalizing place with
  | nil => rfl
  | cons choice choices ih =>
      rw [lastCurrent, List.any_cons, ← ih (place + 1)]
      cases lastCurrent strOf current (place + 1) choices with
      | some later => simp
      | none =>
          cases isCurrent (pyText strOf choice.1) current with
          | true => rfl
          | false => rfl

theorem le_lastCurrent {place found : Nat} {choices : List (Value × Text)}
    (h : lastCurrent strOf current place choices = some found) : place ≤ found := by
  induction choices generalizing place with
  | nil => cases h
  | cons choice choices ih =>
      rw [lastCurrent] at h
      cases hrest : lastCurrent strOf current (place + 1) choices with
      | some later =>
          rw [hrest] at h
          obtain rfl := Option.some.inj h
          have := ih hrest
          omega
      | none =>
          rw [hrest] at h
          dsimp only at h
          split at h
          · exact Nat.le_of_eq (Option.some.inj h)
          · cases h

theorem radioElements_congr (f : Field) {a b : Option Nat} {place : Nat} {values : List Text}
    (h : ∀ i, place ≤ i → (a = some i ↔ b = some i)) :
    f.radioElements a place values = f.radioElements b place values := by
  induction values generalizing place with
  | nil => rfl
  | cons value values ih =>
      have hhead : decide (a = some place) = decide (b = some place) :=
        decide_eq_decide.mpr (h place (Nat.le_refl place))
      rw [Field.radioElements, Field.radioElements, hhead,
        ih fun i hi => h i (Nat.le_of_succ_le hi)]

-- A radio button as it is read, before its group is settled.
def unsettled (strOf : Value → Text) (f : Field) (current : Option Text) (leading : Bool)
    (choice : Value × Text) : Element :=
  { f.element .radio 0 (choiceValue strOf choice)
      (isCurrent (pyText strOf choice.1) current) with fromDefault := leading }

theorem any_unsettled (f : Field) (choices : List (Value × Text)) :
    ((choices.map (unsettled strOf f current false)).any fun other =>
      other.kind = .radio && other.name = f.name && other.checked) =
        choices.any fun choice => isCurrent (pyText strOf choice.1) current := by
  rw [List.any_map]
  congr 1
  funext choice
  simp [unsettled, Field.element]

theorem lastCurrent_head (place : Nat) (choice : Value × Text) (choices : List (Value × Text)) :
    lastCurrent strOf current place (choice :: choices) = some place ↔
      isCurrent (pyText strOf choice.1) current = true ∧
        choices.any (fun choice => isCurrent (pyText strOf choice.1) current) = false := by
  rw [← lastCurrent_isSome (place + 1), lastCurrent]
  cases hrest : lastCurrent strOf current (place + 1) choices with
  | some later =>
      have hlate := le_lastCurrent hrest
      simp only [Option.isSome_some, Option.some.injEq, Bool.true_eq_false, and_false, iff_false]
      omega
  | none =>
      cases isCurrent (pyText strOf choice.1) current with
      | true => simp
      | false => simp

theorem lastCurrent_tail (place : Nat) (choice : Value × Text) (choices : List (Value × Text))
    {i : Nat} (hi : place + 1 ≤ i) :
    lastCurrent strOf current place (choice :: choices) = some i ↔
      lastCurrent strOf current (place + 1) choices = some i := by
  rw [lastCurrent]
  cases lastCurrent strOf current (place + 1) choices with
  | some later => exact Iff.rfl
  | none =>
      dsimp only
      split
      · simp only [Option.some.injEq, reduceCtorEq, iff_false]
        omega
      · exact Iff.rfl

-- The first of a group is numbered and settled by what stands behind it.
theorem settled_cons (f : Field) (place : Nat) (leading : Bool) (choice : Value × Text)
    (choices : List (Value × Text)) (hleading : leading = (f.fromDefault && place = 0)) :
    numbered (List.replicate place f.name) (settle (unsettled strOf f current leading choice ::
        choices.map (unsettled strOf f current false))) =
      f.element .radio place (choiceValue strOf choice)
          (lastCurrent strOf current place (choice :: choices) = some place) ::
        numbered (List.replicate (place + 1) f.name)
          (settle (choices.map (unsettled strOf f current false))) := by
  have hmark : (isCurrent (pyText strOf choice.1) current &&
      !choices.any fun choice => isCurrent (pyText strOf choice.1) current) =
        decide (lastCurrent strOf current place (choice :: choices) = some place) := by
    rw [Bool.eq_iff_iff, decide_eq_true_eq, lastCurrent_head, Bool.and_eq_true,
      Bool.not_eq_true']
  have hname : (unsettled strOf f current leading choice).name = f.name := rfl
  have hkind : (unsettled strOf f current leading choice).kind = .radio := rfl
  have hchecked : (unsettled strOf f current leading choice).checked =
      isCurrent (pyText strOf choice.1) current := rfl
  rw [settle, hname, any_unsettled, hkind, hchecked, decide_eq_true rfl, Bool.true_and, hmark,
    numbered, List.replicate_succ']
  dsimp only
  rw [List.count_replicate_self]
  subst hleading
  rfl

-- By induction on the choices: the last of them that is current keeps its mark.
theorem settled_radios (f : Field) (place : Nat) (hplace : 0 < place)
    (choices : List (Value × Text)) :
    numbered (List.replicate place f.name)
        (settle (choices.map (unsettled strOf f current false))) =
      f.radioElements (lastCurrent strOf current place choices) place
        (choices.map (choiceValue strOf)) := by
  induction choices generalizing place with
  | nil => rfl
  | cons choice choices ih =>
      have hleading : false = (f.fromDefault && decide (place = 0)) := by
        rw [decide_eq_false (Nat.ne_of_gt hplace), Bool.and_false]
      rw [List.map_cons, settled_cons f place false choice choices hleading,
        ih (place + 1) (Nat.succ_pos place), List.map_cons, Field.radioElements]
      exact congrArg _ (radioElements_congr f fun i hi =>
        (lastCurrent_tail place choice choices hi).symm)

-- What is read of one field is the field that was meant.
theorem settled_field (shape : Shape) :
    numbered [] (settle (readElements strOf pinned name var current fromDefault shape)) =
      (fieldOf strOf pinned name var current fromDefault shape).elements := by
  cases shape with
  | radios first choices =>
      have hcons := @settled_cons strOf current
        (fieldOf strOf pinned name var current fromDefault (.radios first choices)) 0 fromDefault
        first choices (Bool.and_true fromDefault).symm
      have htail := @settled_radios strOf current
        (fieldOf strOf pinned name var current fromDefault (.radios first choices)) 1
        Nat.one_pos choices
      have hcongr := @radioElements_congr (fieldOf strOf pinned name var current fromDefault
        (.radios first choices)) _ _ 1 (choices.map (choiceValue strOf)) fun i hi =>
          (@lastCurrent_tail strOf current 0 first choices i hi).symm
      exact hcons.trans (congrArg _ (htail.trans hcongr))
  | select choices => rfl
  | number => rfl
  | slider lo hi display => rfl
  | area => rfl
  | secret => rfl
  | text => rfl
  | bool => rfl

theorem readElements_name (shape : Shape) :
    ∀ el ∈ readElements strOf pinned name var current fromDefault shape,
      el.name = Html.shown name := by
  cases shape with
  | radios first choices =>
      intro el hel
      rcases List.mem_cons.mp hel with rfl | hel
      · rfl
      · obtain ⟨choice, -, rfl⟩ := List.mem_map.mp hel
        rfl
  | select choices => exact fun el hel => by rw [List.mem_singleton.mp hel]; rfl
  | number => exact fun el hel => by rw [List.mem_singleton.mp hel]; rfl
  | slider lo hi display => exact fun el hel => by rw [List.mem_singleton.mp hel]; rfl
  | area => exact fun el hel => by rw [List.mem_singleton.mp hel]; rfl
  | secret => exact fun el hel => by rw [List.mem_singleton.mp hel]; rfl
  | text => exact fun el hel => by rw [List.mem_singleton.mp hel]; rfl
  | bool => exact fun el hel => by rw [List.mem_singleton.mp hel]; rfl

end Settled

end Stra2us.Page.Markup
