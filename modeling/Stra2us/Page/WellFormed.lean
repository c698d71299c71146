import Stra2us.Page.Skeleton

namespace Stra2us.Page.Markup

open Foundation Server
open Foundation.Html (Piece)

section Labels

variable {strOf : Value → Text} {var : Var} {current : Option Text}

def labels (names : List String) : List Text :=
  names.map String.toList

-- Names that can stand on one tag.
def GoodLabels (names : List Text) : Prop :=
  (∀ name ∈ names, Html.isName name) ∧ names.Nodup

instance (names : List Text) : Decidable (GoodLabels names) :=
  inferInstanceAs (Decidable ((∀ name ∈ names, Html.isName name) ∧ names.Nodup))

theorem goodAttributes_of {attributes : Attributes} {names : List Text}
    (h : (attributes.map Prod.fst).Sublist names) (hnames : GoodLabels names) :
    Html.GoodAttributes attributes :=
  ⟨fun a ha => hnames.1 a.1 (h.subset (List.mem_map_of_mem ha)), h.nodup hnames.2⟩

theorem labels_own : ((ownAttributes var current).map Prod.fst).Sublist
    (labels ["data-original", "data-write-only"]) := by
  unfold ownAttributes
  split
  · exact List.Sublist.refl _
  · exact List.Sublist.cons_cons _ (List.nil_sublist _)

theorem labels_help : ((helpAttributes strOf var).map Prod.fst).Sublist (labels ["title"]) := by
  unfold helpAttributes
  split
  · split
    · exact List.Sublist.refl _
    · exact List.nil_sublist _
  · exact List.nil_sublist _

theorem labels_optional (label : String) (value : Option Value) :
    ((optional strOf label value).map Prod.fst).Sublist (labels [label]) := by
  cases value with
  | none => exact List.nil_sublist _
  | some value => exact List.Sublist.refl _

theorem labels_step : ((stepAttributes strOf var).map Prod.fst).Sublist (labels ["step"]) := by
  unfold stepAttributes
  split
  · exact List.Sublist.refl _
  · split
    · exact List.Sublist.refl _
    · exact List.nil_sublist _

theorem labels_markIf (label : String) (marked : Bool) :
    ((markIf label marked).map Prod.fst).Sublist (labels [label]) := by
  cases marked with
  | true => exact List.Sublist.refl _
  | false => exact List.nil_sublist _

end Labels

section Fills

variable {strOf : Value → Text} {var : Var} {current : Option Text} {name : Text}

-- What may be put behind the name of a control.
def Extra (extra : Attributes) : Prop :=
  (extra.map Prod.fst).Sublist (labels ["id", "data-from-default"])

-- A tag of an element that holds markup.
def plainTag (name : Text) : Bool :=
  Html.isName name && !Html.isRcdata name && !Html.isRawText name

theorem wellFormed_tag {before tag : Text} {attributes : Attributes} (names : List Text)
    (closing : Bool) (htag : plainTag tag) (h : (attributes.map Prod.fst).Sublist names)
    (hnames : GoodLabels names) : (Piece.tag before closing tag attributes).WellFormed := by
  unfold plainTag at htag
  simp only [Bool.and_eq_true, Bool.not_eq_true'] at htag
  exact ⟨htag.1.1, goodAttributes_of h hnames, fun _ => ⟨htag.1.2, htag.2⟩⟩

theorem wellFormed_end {before tag : Text} (htag : plainTag tag) :
    (Piece.tag before true tag []).WellFormed :=
  wellFormed_tag [] true htag (List.nil_sublist []) (by decide)

-- The front and the rest are fine, and so is the control with any attributes behind its name.
structure Skeleton.WellFormed (s : Skeleton) : Prop where
  front : ∀ p ∈ s.front, p.WellFormed
  control : ∀ name extra, Extra extra →
    (s.control (s.before ++ valued "name" name :: (extra ++ s.after))).WellFormed
  rest : ∀ p ∈ s.rest, p.WellFormed

theorem Skeleton.WellFormed.fill {s : Skeleton} (h : s.WellFormed) (name : Text)
    {extra : Attributes} (hextra : Extra extra) : ∀ p ∈ s.fill name extra, p.WellFormed := by
  intro p hp
  unfold Skeleton.fill at hp
  rcases List.mem_append.mp hp with hp | hp
  · exact h.front p hp
  · rcases List.mem_cons.mp hp with rfl | hp
    · exact h.control name extra hextra
    · exact h.rest p hp

-- The names on a control, given those before and after its own.
theorem labels_control {before after extra : Attributes} {first last : List Text} {name : Text}
    (hbefore : (before.map Prod.fst).Sublist first) (hextra : Extra extra)
    (hafter : (after.map Prod.fst).Sublist last) :
    ((before ++ valued "name" name :: (extra ++ after)).map Prod.fst).Sublist
      (first ++ "name".toList :: (labels ["id", "data-from-default"] ++ last)) := by
  rw [List.map_append, List.map_cons, List.map_append]
  exact hbefore.append (List.Sublist.cons_cons _ (hextra.append hafter))

theorem inputSkeleton_wellFormed {type : String} {after : Attributes} (names : List Text)
    (h : (after.map Prod.fst).Sublist names)
    (hnames : GoodLabels (labels ["type"] ++ "name".toList ::
      (labels ["id", "data-from-default"] ++ names))) :
    (inputSkeleton type after).WellFormed where
  front := by simp [inputSkeleton]
  control name extra hextra :=
    wellFormed_tag _ false rfl
      (labels_control (List.Sublist.refl (labels ["type"])) hextra h) hnames
  rest := by simp [inputSkeleton]

theorem selectSkeleton_wellFormed {rest : List Piece} (h : ∀ p ∈ rest, p.WellFormed) :
    (selectSkeleton (ownAttributes var current ++ helpAttributes strOf var) rest).WellFormed where
  front := by simp [selectSkeleton]
  control name extra hextra := by
    have hafter : ((ownAttributes var current ++ helpAttributes strOf var).map Prod.fst).Sublist
        (labels ["data-original", "data-write-only"] ++ labels ["title"]) := by
      rw [List.map_append]
      exact labels_own.append labels_help
    exact wellFormed_tag _ false rfl
      (labels_control (List.Sublist.refl []) hextra hafter) (by decide)
  rest := h

theorem optionPieces_wellFormed (choice : Value × Text) :
    ∀ p ∈ optionPieces strOf current choice, p.WellFormed := by
  unfold optionPieces
  rw [List.forall_mem_cons, List.forall_mem_singleton]
  refine ⟨?_, wellFormed_end (by decide)⟩
  exact wellFormed_tag (labels ["value"] ++ labels ["selected"]) false (by decide)
    (List.Sublist.cons_cons _ (labels_markIf "selected" _)) (by decide)

theorem selectMarkup_wellFormed (choices : List (Value × Text)) :
    (selectMarkup strOf var current choices).WellFormed := by
  refine selectSkeleton_wellFormed ?_
  intro p hp
  rcases List.mem_append.mp hp with hp | hp
  · obtain ⟨choice, -, hp⟩ := List.mem_flatMap.mp hp
    exact optionPieces_wellFormed choice p hp
  · rw [List.mem_singleton.mp hp]
    exact wellFormed_end (by decide)

theorem boolPieces_wellFormed (word : String) :
    ∀ p ∈ boolPieces current word, p.WellFormed := by
  unfold boolPieces
  rw [List.forall_mem_cons, List.forall_mem_singleton]
  refine ⟨?_, wellFormed_end (by decide)⟩
  exact wellFormed_tag (labels ["value"] ++ labels ["selected"]) false (by decide)
    (List.Sublist.cons_cons _ (labels_markIf "selected" _)) (by decide)

theorem boolMarkup_wellFormed : (boolMarkup strOf var current).WellFormed := by
  refine selectSkeleton_wellFormed ?_
  intro p hp
  rcases List.mem_append.mp hp with hp | hp
  · obtain ⟨word, -, hp⟩ := List.mem_flatMap.mp hp
    exact boolPieces_wellFormed word p hp
  · rw [List.mem_singleton.mp hp]
    exact wellFormed_end (by decide)

theorem labels_radio (choice : Value × Text) :
    ((radioRest strOf var current choice).map Prod.fst).Sublist
      (labels ["value"] ++ (labels ["checked"] ++ labels ["data-original", "data-write-only"])) := by
  unfold radioRest
  rw [List.map_cons, List.map_append]
  exact List.Sublist.cons_cons _ ((labels_markIf "checked" _).append labels_own)

theorem radioFront_wellFormed : ∀ p ∈ radioFront, p.WellFormed := by
  unfold radioFront
  rw [List.forall_mem_singleton]
  exact wellFormed_tag (labels ["class"]) false (by decide) (List.Sublist.refl _) (by decide)

theorem radioItem_wellFormed (choice : Value × Text) :
    ∀ p ∈ radioItem strOf var current name choice, p.WellFormed := by
  intro p hp
  rcases List.mem_append.mp hp with hp | hp
  · exact radioFront_wellFormed p hp
  · rcases List.mem_cons.mp hp with rfl | hp
    · exact wellFormed_tag (labels ["type", "name"] ++ (labels ["value"] ++
          (labels ["checked"] ++ labels ["data-original", "data-write-only"]))) false (by decide)
        (List.Sublist.cons_cons _ (List.Sublist.cons_cons _ (labels_radio choice))) (by decide)
    · rw [List.mem_singleton.mp hp]
      exact wellFormed_end (by decide)

theorem radioMarkup_wellFormed (first : Value × Text) (choices : List (Value × Text)) :
    (radioMarkup strOf var current name first choices).WellFormed where
  front := by
    refine List.forall_mem_cons.mpr ⟨?_, radioFront_wellFormed⟩
    exact wellFormed_tag (labels ["class", "role"]) false (by decide)
      (List.Sublist.refl _) (by decide)
  control name extra hextra :=
    wellFormed_tag _ false rfl
      (labels_control (List.Sublist.refl (labels ["type"])) hextra (labels_radio first)) (by decide)
  rest := by
    refine List.forall_mem_cons.mpr ⟨wellFormed_end (by decide), ?_⟩
    intro p hp
    rcases List.mem_append.mp hp with hp | hp
    · obtain ⟨choice, -, hp⟩ := List.mem_flatMap.mp hp
      exact radioItem_wellFormed choice p hp
    · rw [List.mem_singleton.mp hp]
      exact wellFormed_end (by decide)

theorem numberMarkup_wellFormed : (numberMarkup strOf var current).WellFormed := by
  refine inputSkeleton_wellFormed (labels ["data-original", "data-write-only"] ++
    (labels ["min"] ++ (labels ["max"] ++ (labels ["step"] ++ (labels ["value"] ++
      labels ["title"]))))) ?_ (by decide)
  simp only [List.map_append, List.map_cons]
  exact labels_own.append ((labels_optional "min" _).append ((labels_optional "max" _).append
    (labels_step.append (List.Sublist.cons_cons _ labels_help))))

theorem sliderMarkup_wellFormed (lo hi display : Value) :
    (sliderMarkup strOf var current lo hi display).WellFormed := by
  refine inputSkeleton_wellFormed (labels ["data-original", "data-write-only"] ++
    (labels ["min", "max"] ++ (labels ["step"] ++ (labels ["value"] ++ labels ["title"]))))
      ?_ (by decide)
  simp only [List.map_append, List.map_cons]
  exact labels_own.append (List.Sublist.cons_cons _ (List.Sublist.cons_cons _
    ((labels_optional "step" _).append (List.Sublist.cons_cons _ labels_help))))

theorem areaMarkup_wellFormed : (areaMarkup strOf var current).WellFormed where
  front := by simp [areaMarkup]
  control name extra hextra := by
    have hafter : ((areaMarkup strOf var current).after.map Prod.fst).Sublist
        (labels ["data-original", "data-write-only"] ++ (labels ["maxlength"] ++
          (labels ["rows"] ++ labels ["title"]))) := by
      unfold areaMarkup
      simp only [List.map_append, List.map_cons]
      exact labels_own.append ((labels_optional "maxlength" _).append
        (List.Sublist.cons_cons _ labels_help))
    exact goodAttributes_of (labels_control (List.Sublist.refl []) hextra hafter) (by decide)
  rest := by simp [areaMarkup]

theorem secretMarkup_wellFormed : (secretMarkup strOf var current).WellFormed := by
  refine inputSkeleton_wellFormed (labels ["data-original", "data-write-only"] ++
    (labels ["value", "autocomplete"] ++ (labels ["maxlength"] ++ labels ["title"])))
      ?_ (by decide)
  simp only [List.map_append, List.map_cons]
  exact labels_own.append (List.Sublist.cons_cons _ (List.Sublist.cons_cons _
    ((labels_optional "maxlength" _).append labels_help)))

theorem textMarkup_wellFormed : (textMarkup strOf var current).WellFormed := by
  refine inputSkeleton_wellFormed (labels ["data-original", "data-write-only"] ++
    (labels ["value"] ++ (labels ["pattern"] ++ (labels ["maxlength"] ++ labels ["title"]))))
      ?_ (by decide)
  simp only [List.map_append, List.map_cons]
  exact labels_own.append (List.Sublist.cons_cons _ ((labels_optional "pattern" _).append
    ((labels_optional "maxlength" _).append labels_help)))

end Fills

end Stra2us.Page.Markup
