import Stra2us.Page.Widget

namespace Stra2us.Page.Markup

open Foundation Server
open Foundation.Html (Piece)

abbrev Attributes := List (Text × Option Text)

section Skeletons

def valued (name : String) (value : Text) : Text × Option Text :=
  (name.toList, some value)

def bare (name : String) : Text × Option Text :=
  (name.toList, none)

-- A widget as a tree that is still without its name: what stands in front of its first control,
-- the control with the attributes before and after the name, and the rest. A control with a
-- content is an area of text.
structure Skeleton where
  front : List Piece
  tag : Text
  content : Option Text
  before : Attributes
  after : Attributes
  rest : List Piece

namespace Skeleton

def control (s : Skeleton) (attributes : Attributes) : Piece :=
  match s.content with
  | none => .tag [] false s.tag attributes
  | some text => .area attributes text

-- With its name, and with more attributes right behind the name.
def fill (s : Skeleton) (name : Text) (extra : Attributes) : List Piece :=
  s.front ++ s.control (s.before ++ valued "name" name :: (extra ++ s.after)) :: s.rest

def opening (s : Skeleton) : Text :=
  match s.content with
  | none => s.tag
  | some _ => Html.areaName

-- All that is written before the name.
def head (s : Skeleton) : Text :=
  s.front.flatMap Piece.write ++
    '<' :: (s.opening ++ (s.before.flatMap Html.writeAttribute ++ [' ']))

def tail (s : Skeleton) : Text :=
  s.after.flatMap Html.writeAttribute ++ '>' ::
    ((match s.content with
      | none => []
      | some text => Html.escape text ++ Html.writeTag true Html.areaName []) ++
    s.rest.flatMap Piece.write)

end Skeleton

theorem writeAttribute_valued (name : String) (value : Text) :
    Html.writeAttribute (valued name value) = ' ' :: attr name (Html.escape value) := by
  simp [Html.writeAttribute, valued, attr]

theorem writeAttribute_bare (name : String) :
    Html.writeAttribute (bare name) = ' ' :: name.toList := by
  simp [Html.writeAttribute, bare]

theorem writeTag_false (name : Text) (attributes : Attributes) :
    Html.writeTag false name attributes =
      '<' :: (name ++ (attributes.flatMap Html.writeAttribute ++ ['>'])) := rfl

theorem writeTag_true (name : Text) :
    Html.writeTag true name [] = "</".toList ++ (name ++ ['>']) := rfl

theorem Skeleton.write_fill (s : Skeleton) (name : Text) (extra : Attributes) :
    (s.fill name extra).flatMap Piece.write =
      s.head ++ (attr "name" (Html.escape name) ++
        (extra.flatMap Html.writeAttribute ++ s.tail)) := by
  obtain ⟨front, tag, content, before, after, rest⟩ := s
  cases content with
  | none =>
      simp [fill, control, head, tail, opening, Piece.write, writeTag_false, writeAttribute_valued,
        Html.escape]
  | some text =>
      simp [fill, control, head, tail, opening, Piece.write, writeTag_false, writeAttribute_valued]

end Skeletons

section Widgets

variable (strOf : Value → Text) (var : Var) (current : Option Text)

-- What comes behind the name of a control.
def ownAttributes : Attributes :=
  valued "data-original" (current.getD []) ::
    if isWriteOnly var then [valued "data-write-only" "true".toList] else []

def helpAttributes : Attributes :=
  match Value.lookup var "help".toList with
  | some help => if help.truthy then [valued "title" (oneLine strOf help)] else []
  | none => []

def optional (name : String) (value : Option Value) : Attributes :=
  match value with
  | some value => [valued name (plain strOf value)]
  | none => []

def markIf (name : String) (marked : Bool) : Attributes :=
  if marked then [bare name] else []

-- A control that is one tag.
def inputSkeleton (type : String) (after : Attributes) : Skeleton where
  front := []
  tag := "input".toList
  content := none
  before := [valued "type" type.toList]
  after := after
  rest := []

def selectSkeleton (after : Attributes) (rest : List Piece) : Skeleton where
  front := []
  tag := "select".toList
  content := none
  before := []
  after := after
  rest := rest

def optionPieces (choice : Value × Text) : List Piece :=
  [.tag ['\n'] false "option".toList (valued "value" (plain strOf choice.1) ::
      markIf "selected" (isCurrent (pyText strOf choice.1) current)),
    .tag choice.2 true "option".toList []]

def selectMarkup (choices : List (Value × Text)) : Skeleton :=
  selectSkeleton (ownAttributes var current ++ helpAttributes strOf var)
    (choices.flatMap (optionPieces strOf current) ++ [.tag ['\n'] true "select".toList []])

def radioRest (choice : Value × Text) : Attributes :=
  valued "value" (plain strOf choice.1) ::
    (markIf "checked" (isCurrent (pyText strOf choice.1) current) ++ ownAttributes var current)

def radioFront : List Piece :=
  [.tag [] false "label".toList [valued "class" "radio-option".toList]]

def radioItem (name : Text) (choice : Value × Text) : List Piece :=
  radioFront ++ [.tag [] false "input".toList (valued "type" "radio".toList ::
      valued "name" name :: radioRest strOf var current choice),
    .tag (' ' :: choice.2) true "label".toList []]

def radioMarkup (name : Text) (first : Value × Text) (choices : List (Value × Text)) : Skeleton where
  front := .tag [] false "div".toList
    [valued "class" "radio-group".toList, valued "role" "radiogroup".toList] :: radioFront
  tag := "input".toList
  content := none
  before := [valued "type" "radio".toList]
  after := radioRest strOf var current first
  rest := .tag (' ' :: first.2) true "label".toList [] ::
    (choices.flatMap (radioItem strOf var current name) ++ [.tag [] true "div".toList []])

def stepAttributes : Attributes :=
  match get var "step" with
  | some step => [valued "step" (plain strOf step)]
  | none => if typeIs var "float" then [valued "step" "any".toList] else []

def numberMarkup : Skeleton :=
  inputSkeleton "number" (ownAttributes var current ++ (optional strOf "min" (effectiveMin var) ++
    (optional strOf "max" (effectiveMax var) ++ (stepAttributes strOf var ++
      (valued "value" (current.getD []) :: helpAttributes strOf var)))))

def sliderMarkup (lo hi display : Value) : Skeleton :=
  inputSkeleton "range" (ownAttributes var current ++ valued "min" (plain strOf lo) ::
    valued "max" (plain strOf hi) :: (optional strOf "step" (get var "step") ++
      (valued "value" (plain strOf display) :: helpAttributes strOf var)))

def lengthAttributes : Attributes :=
  optional strOf "maxlength" (get var "max_length")

def areaMarkup : Skeleton where
  front := []
  tag := Html.areaName
  content := some (shownText var current)
  before := []
  after := ownAttributes var current ++ (lengthAttributes strOf var ++
    (valued "rows" "4".toList :: helpAttributes strOf var))
  rest := []

def secretMarkup : Skeleton :=
  inputSkeleton "password" (ownAttributes var current ++ valued "value" (shownText var current) ::
    valued "autocomplete" "new-password".toList ::
      (lengthAttributes strOf var ++ helpAttributes strOf var))

def textMarkup : Skeleton :=
  inputSkeleton "text" (ownAttributes var current ++ valued "value" (shownText var current) ::
    (optional strOf "pattern" (get var "pattern") ++
      (lengthAttributes strOf var ++ helpAttributes strOf var)))

def boolPieces (word : String) : List Piece :=
  [.tag [] false "option".toList (valued "value" word.toList ::
      markIf "selected" ((current.getD []).map Char.toLower = word.toList)),
    .tag word.toList true "option".toList []]

def boolMarkup : Skeleton :=
  selectSkeleton (ownAttributes var current ++ helpAttributes strOf var)
    (["true", "false"].flatMap (boolPieces current) ++ [.tag [] true "select".toList []])

-- Which control it is.
inductive Shape
  | select (choices : List (Value × Text))
  | radios (first : Value × Text) (choices : List (Value × Text))
  | number
  | slider (lo hi display : Value)
  | area
  | secret
  | text
  | bool

def Shape.skeleton (name : Text) : Shape → Skeleton
  | select choices => selectMarkup strOf var current choices
  | radios first choices => radioMarkup strOf var current name first choices
  | number => numberMarkup strOf var current
  | slider lo hi display => sliderMarkup strOf var current lo hi display
  | area => areaMarkup strOf var current
  | secret => secretMarkup strOf var current
  | text => textMarkup strOf var current
  | bool => boolMarkup strOf var current

-- There is at least one choice.
def choiceShape (choices : List (Value × Text)) : Shape :=
  if widgetIs var "radio" then
    match choices with
    | first :: rest => .radios first rest
    | [] => .select []
  else .select choices

def sliderOrNumber : Except Exn Shape :=
  match effectiveMin var, effectiveMax var with
  | some lo, some hi => do
      let display ← displayValue current lo hi
      .ok (.slider lo hi display)
  | _, _ => .ok .number

def textShape : Shape :=
  if fieldTruthy var "multiline".toList then .area
  else if widgetIs var "secret" then .secret
  else .text

def widgetShape : Except Exn Shape := do
  let choices ← enumChoices strOf var
  if typeIs var "int" then
    match choices with
    | some choices => .ok (choiceShape var choices)
    | none => if widgetIs var "slider" then sliderOrNumber var current else .ok .number
  else if typeIs var "float" then
    match choices with
    | some choices => .ok (choiceShape var choices)
    | none => .ok .number
  else if typeIs var "bool" then
    .ok (if widgetIs var "radio" then
        .radios (.str "true".toList, "true".toList) [(.str "false".toList, "false".toList)]
      else .bool)
  else if typeIs var "string" ∨ typeIs var "enum" then
    match choices with
    | some choices => .ok (choiceShape var choices)
    | none => .ok (textShape var)
  else .ok .text

-- The tree of the control.
def widgetMarkup (name : Text) : Except Exn Skeleton := do
  let shape ← widgetShape strOf var current
  .ok (shape.skeleton strOf var current name)

end Widgets

section Written

variable {strOf : Value → Text} {var : Var} {current : Option Text} {name : Text}

theorem joined_cons (first : Text) (parts : List Text) :
    joined (first :: parts) = first ++ parts.flatMap (' ' :: ·) := by
  induction parts generalizing first with
  | nil => simp [joined]
  | cons part parts ih =>
      have htail := ih part
      unfold joined at htail ⊢
      rw [List.intercalate_cons_cons, htail]
      simp

theorem commonAttrs_eq : commonAttrs name var current =
    attr "name" (Html.escape name) ++
      (ownAttributes var current).flatMap Html.writeAttribute := by
  unfold commonAttrs ownAttributes
  rw [List.cons_append, joined_cons]
  cases isWriteOnly var with
  | true => simp [writeAttribute_valued, Html.escape, Html.escapeChar]
  | false => simp [writeAttribute_valued]

theorem helpTextAttr_eq :
    helpTextAttr strOf var = (helpAttributes strOf var).flatMap Html.writeAttribute := by
  unfold helpTextAttr helpAttributes
  cases Value.lookup var "help".toList with
  | none => rfl
  | some help =>
      dsimp only
      split
      · simp [writeAttribute_valued]
      · rfl

-- An attribute that is there when its hint is.
theorem hintAttr_eq (label : String) (hint : Option Value) :
    (hintAttr strOf label hint).flatMap (' ' :: ·) =
      (optional strOf label hint).flatMap Html.writeAttribute := by
  cases hint with
  | none => rfl
  | some value => simp [hintAttr, optional, writeAttribute_valued, esc]

theorem stepAttr_eq : (stepAttr strOf var).flatMap (' ' :: ·) =
    (stepAttributes strOf var).flatMap Html.writeAttribute := by
  unfold stepAttr stepAttributes
  cases get var "step" with
  | some step => simp [writeAttribute_valued, esc]
  | none =>
      dsimp only
      split
      · simp [writeAttribute_valued, Html.escape, Html.escapeChar]
      · rfl

theorem markIf_eq (label : String) (marked : Bool) :
    (markIf label marked).flatMap Html.writeAttribute =
      if marked then ' ' :: label.toList else [] := by
  cases marked with
  | true => simp [markIf, writeAttribute_bare]
  | false => rfl

theorem write_input (type : String) (after : Attributes) (name : Text) :
    ((inputSkeleton type after).fill name []).flatMap Piece.write =
      "<input ".toList ++ (attr "type" (Html.escape type.toList) ++ (' ' ::
        (attr "name" (Html.escape name) ++ (after.flatMap Html.writeAttribute ++ ['>'])))) := by
  rw [Skeleton.write_fill]
  simp [inputSkeleton, Skeleton.head, Skeleton.tail, Skeleton.opening, writeAttribute_valued]

theorem write_select (after : Attributes) (rest : List Piece) (name : Text) :
    ((selectSkeleton after rest).fill name []).flatMap Piece.write =
      "<select ".toList ++ (attr "name" (Html.escape name) ++
        (after.flatMap Html.writeAttribute ++ '>' :: rest.flatMap Piece.write)) := by
  rw [Skeleton.write_fill]
  simp [selectSkeleton, Skeleton.head, Skeleton.tail, Skeleton.opening]

theorem renderNumber_eq : renderNumber strOf name var current =
    ((numberMarkup strOf var current).fill name []).flatMap Piece.write := by
  rw [numberMarkup, write_input]
  unfold renderNumber
  simp only [List.cons_append, List.nil_append, joined_cons, List.flatMap_append, hintAttr_eq,
    stepAttr_eq, commonAttrs_eq, helpTextAttr_eq]
  simp [writeAttribute_valued, attr, Html.escape, Html.escapeChar]

theorem renderSecret_eq : renderSecret strOf name var current =
    ((secretMarkup strOf var current).fill name []).flatMap Piece.write := by
  rw [secretMarkup, write_input]
  unfold renderSecret
  simp only [List.cons_append, List.nil_append, joined_cons, List.flatMap_cons,
    maxLengthAttr, hintAttr_eq, commonAttrs_eq, helpTextAttr_eq]
  simp [writeAttribute_valued, attr, Html.escape, Html.escapeChar, lengthAttributes]

theorem renderText_eq : renderText strOf name var current =
    ((textMarkup strOf var current).fill name []).flatMap Piece.write := by
  rw [textMarkup, write_input]
  unfold renderText
  simp only [List.cons_append, List.nil_append, joined_cons, List.flatMap_cons,
    List.flatMap_append, maxLengthAttr, hintAttr_eq, commonAttrs_eq, helpTextAttr_eq]
  simp [writeAttribute_valued, attr, Html.escape, Html.escapeChar, lengthAttributes]

theorem areaMarkup_head : (areaMarkup strOf var current).head = "<textarea ".toList := rfl

theorem areaMarkup_tail : (areaMarkup strOf var current).tail =
    (ownAttributes var current ++ (lengthAttributes strOf var ++
      (valued "rows" "4".toList :: helpAttributes strOf var))).flatMap Html.writeAttribute ++
        '>' :: (Html.escape (shownText var current) ++ "</textarea>".toList) := by
  unfold areaMarkup Skeleton.tail
  rw [List.flatMap_nil, List.append_nil]
  rfl

theorem renderTextarea_eq : renderTextarea strOf name var current =
    ((areaMarkup strOf var current).fill name []).flatMap Piece.write := by
  have hrows : Html.escape "4".toList = "4".toList := by decide
  rw [Skeleton.write_fill, areaMarkup_head, areaMarkup_tail]
  unfold renderTextarea
  simp only [List.cons_append, List.nil_append, joined_cons, List.flatMap_cons, List.flatMap_nil,
    List.flatMap_append, maxLengthAttr, hintAttr_eq, commonAttrs_eq, helpTextAttr_eq,
    writeAttribute_valued, hrows, lengthAttributes, List.append_assoc]
  rfl

theorem renderOption_eq (choice : Value × Text) :
    '\n' :: renderOption strOf current choice =
      (optionPieces strOf current choice).flatMap Piece.write := by
  unfold renderOption optionPieces
  simp only [List.flatMap_cons, List.flatMap_nil, Piece.write, writeTag_false, writeTag_true,
    writeAttribute_valued, markIf_eq, List.append_nil, esc]
  cases isCurrent (pyText strOf choice.1) current with
  | true => simp [Html.escape, Html.escapeChar]
  | false => simp [Html.escape, Html.escapeChar]

-- Joined with line feeds, where there is something to join.
theorem intercalate_eq {α : Type} (f : α → Text) (first : α) (rest : List α) :
    '\n' :: List.intercalate ['\n'] ((first :: rest).map f) =
      (first :: rest).flatMap fun a => '\n' :: f a := by
  induction rest generalizing first with
  | nil => simp
  | cons second rest ih =>
      have htail := ih second
      rw [List.map_cons] at htail ⊢
      rw [List.map_cons, List.intercalate_cons_cons, List.flatMap_cons, ← htail]
      simp

theorem renderSelect_eq {choices : List (Value × Text)} (h : choices ≠ []) :
    renderSelect strOf name var current choices =
      ((selectMarkup strOf var current choices).fill name []).flatMap Piece.write := by
  obtain ⟨first, rest, rfl⟩ := List.exists_cons_of_ne_nil h
  have hoptions : (first :: rest).flatMap (fun c => '\n' :: renderOption strOf current c) =
      ((first :: rest).flatMap (optionPieces strOf current)).flatMap Piece.write := by
    rw [List.flatMap_assoc]
    exact List.flatMap_congr fun c _ => renderOption_eq c
  rw [selectMarkup, write_select, List.flatMap_append, List.flatMap_append, ← hoptions,
    ← intercalate_eq (renderOption strOf current), ← helpTextAttr_eq]
  unfold renderSelect
  rw [commonAttrs_eq]
  simp [Piece.write, writeTag_true, Html.escape, Html.escapeChar]

theorem renderRadioItem_eq (choice : Value × Text) :
    renderRadioItem strOf name var current choice =
      (radioItem strOf var current name choice).flatMap Piece.write := by
  unfold renderRadioItem radioItem radioFront radioRest ownAttributes
  simp only [List.flatMap_cons, List.flatMap_nil, List.flatMap_append, Piece.write, writeTag_false,
    writeTag_true, writeAttribute_valued, markIf_eq, List.append_nil, esc]
  cases isCurrent (pyText strOf choice.1) current with
  | true =>
      cases isWriteOnly var with
      | true => simp [writeAttribute_valued, attr, Html.escape, Html.escapeChar]
      | false => simp [attr, Html.escape, Html.escapeChar]
  | false =>
      cases isWriteOnly var with
      | true => simp [writeAttribute_valued, attr, Html.escape, Html.escapeChar]
      | false => simp [attr, Html.escape, Html.escapeChar]

theorem renderRadio_eq (first : Value × Text) (choices : List (Value × Text)) :
    renderRadio strOf name var current (first :: choices) =
      ((radioMarkup strOf var current name first choices).fill name []).flatMap Piece.write := by
  have hitems : ((first :: choices).map (renderRadioItem strOf name var current)).flatten =
      ((first :: choices).flatMap (radioItem strOf var current name)).flatMap Piece.write := by
    rw [List.flatMap_assoc, ← List.flatMap_def]
    exact List.flatMap_congr fun c _ => renderRadioItem_eq c
  have hfill : (radioMarkup strOf var current name first choices).fill name [] =
      .tag [] false "div".toList
        [valued "class" "radio-group".toList, valued "role" "radiogroup".toList] ::
          ((first :: choices).flatMap (radioItem strOf var current name) ++
            [.tag [] true "div".toList []]) := by
    simp [Skeleton.fill, Skeleton.control, radioMarkup, radioItem, radioFront]
  unfold renderRadio
  rw [hitems, hfill]
  simp [Piece.write, writeTag_true, writeTag_false, writeAttribute_valued, attr, Html.escape,
    Html.escapeChar]

theorem boolOption_eq (current : Option Text) (word : String)
    (hword : Html.escape word.toList = word.toList) :
    boolOption current word = (boolPieces current word).flatMap Piece.write := by
  unfold boolOption boolPieces
  simp only [List.flatMap_cons, List.flatMap_nil, Piece.write, writeTag_false, writeTag_true,
    writeAttribute_valued, markIf_eq, List.append_nil, hword]
  by_cases hmark : (current.getD []).map Char.toLower = word.toList
  · simp [hmark, attr, Html.escape]
  · simp [hmark, attr, Html.escape]

theorem renderBool_eq : renderBool strOf name var current =
    ((boolMarkup strOf var current).fill name []).flatMap Piece.write := by
  have htrue := boolOption_eq current "true" (by decide)
  have hfalse := boolOption_eq current "false" (by decide)
  rw [boolMarkup, write_select]
  unfold renderBool
  rw [commonAttrs_eq, helpTextAttr_eq, List.map_cons, List.map_cons, htrue, hfalse]
  simp [Piece.write, writeTag_true, Html.escape]

theorem renderSlider_eq : renderSlider strOf name var current =
    (sliderOrNumber var current).map fun shape =>
      ((shape.skeleton strOf var current name).fill name []).flatMap Piece.write := by
  unfold renderSlider sliderOrNumber
  cases effectiveMin var with
  | none => exact congrArg Except.ok renderNumber_eq
  | some lo =>
      cases effectiveMax var with
      | none => exact congrArg Except.ok renderNumber_eq
      | some hi =>
          dsimp only
          cases displayValue current lo hi with
          | error exn => rfl
          | ok display =>
              refine congrArg Except.ok ?_
              dsimp only
              rw [Shape.skeleton, sliderMarkup, write_input, hintAttr_eq, commonAttrs_eq,
                helpTextAttr_eq]
              simp [writeAttribute_valued, attr, Html.escape, Html.escapeChar, esc]

theorem iterate_ne_nil {value : Value} {entries : List Value} (htrue : value.truthy = true)
    (h : iterate value = .ok entries) : entries ≠ [] := by
  rintro rfl
  cases value with
  | list items =>
      obtain rfl := Except.ok.inj h
      cases htrue
  | dict pairs =>
      rw [List.map_eq_nil_iff.mp (Except.ok.inj h)] at htrue
      cases htrue
  | str text =>
      rw [List.map_eq_nil_iff.mp (Except.ok.inj h)] at htrue
      cases htrue
  | surrogates units =>
      rw [List.map_eq_nil_iff.mp (Except.ok.inj h)] at htrue
      cases htrue
  | bytes data =>
      rw [List.map_eq_nil_iff.mp (Except.ok.inj h)] at htrue
      cases htrue
  | _ => cases h

theorem legacyChoices_ne_nil {choices : List (Value × Text)}
    (h : enumChoices.legacyChoices strOf var = .ok (some choices)) : choices ≠ [] := by
  unfold enumChoices.legacyChoices at h
  cases hvalues : Value.lookup var "values".toList with
  | none =>
      rw [hvalues] at h
      cases h
  | some values =>
      rw [hvalues] at h
      dsimp only at h
      split at h
      · rename_i hlegacy
        cases hentries : iterate values with
        | error exn =>
            rw [hentries] at h
            cases h
        | ok entries =>
            rw [hentries] at h
            obtain rfl := Option.some.inj (Except.ok.inj h)
            exact fun hnil => iterate_ne_nil hlegacy.2 hentries (List.map_eq_nil_iff.mp hnil)
      · cases h

-- Where there are choices there is one.
theorem enumChoices_ne_nil {choices : List (Value × Text)}
    (h : enumChoices strOf var = .ok (some choices)) : choices ≠ [] := by
  unfold enumChoices at h
  cases henum : Value.lookup var "enum".toList with
  | none =>
      rw [henum] at h
      exact legacyChoices_ne_nil h
  | some enum =>
      rw [henum] at h
      dsimp only at h
      split at h
      · rename_i htrue
        cases hentries : iterate enum with
        | error exn =>
            rw [hentries] at h
            cases h
        | ok entries =>
            rw [hentries] at h
            obtain rfl := Option.some.inj (Except.ok.inj h)
            exact fun hnil => iterate_ne_nil htrue hentries (List.map_eq_nil_iff.mp hnil)
      · exact legacyChoices_ne_nil h

theorem renderChoice_eq {choices : List (Value × Text)} (h : choices ≠ []) :
    (if widgetIs var "radio" then renderRadio strOf name var current choices
      else renderSelect strOf name var current choices) =
        (((choiceShape var choices).skeleton strOf var current name).fill name []).flatMap
          Piece.write := by
  obtain ⟨first, rest, rfl⟩ := List.exists_cons_of_ne_nil h
  unfold choiceShape
  split
  · exact renderRadio_eq first rest
  · exact renderSelect_eq h

theorem renderTextShape_eq :
    (if fieldTruthy var "multiline".toList then renderTextarea strOf name var current
      else if widgetIs var "secret" then renderSecret strOf name var current
      else renderText strOf name var current) =
        (((textShape var).skeleton strOf var current name).fill name []).flatMap Piece.write := by
  unfold textShape
  split
  · exact renderTextarea_eq
  · split
    · exact renderSecret_eq
    · exact renderText_eq

theorem renderBounded_eq :
    (if widgetIs var "slider" ∧ (effectiveMin var).isSome ∧ (effectiveMax var).isSome then
        renderSlider strOf name var current
      else .ok (renderNumber strOf name var current)) =
    (if widgetIs var "slider" then sliderOrNumber var current else .ok .number).map fun shape =>
      ((shape.skeleton strOf var current name).fill name []).flatMap Piece.write := by
  by_cases hslider : widgetIs var "slider"
  · rw [if_pos hslider, ← renderSlider_eq]
    by_cases hbounds : (effectiveMin var).isSome ∧ (effectiveMax var).isSome
    · rw [if_pos ⟨hslider, hbounds⟩]
    · rw [if_neg fun h => hbounds h.2]
      unfold renderSlider
      cases hlo : effectiveMin var with
      | none => rfl
      | some lo =>
          cases hhi : effectiveMax var with
          | none => rfl
          | some hi =>
              rw [hlo, hhi] at hbounds
              exact absurd ⟨rfl, rfl⟩ hbounds
  · rw [if_neg fun h => hslider h.1, if_neg hslider]
    exact congrArg Except.ok renderNumber_eq

-- The text of every control is its tree, written out.
theorem renderWidget_eq (strOf : Value → Text) (name : Text) (var : Var) (current : Option Text) :
    renderWidget strOf name var current =
      (widgetMarkup strOf var current name).map fun s => (s.fill name []).flatMap Piece.write := by
  have hmap : (widgetMarkup strOf var current name).map (fun s =>
      (s.fill name []).flatMap Piece.write) = (widgetShape strOf var current).map fun shape =>
        ((shape.skeleton strOf var current name).fill name []).flatMap Piece.write := by
    unfold widgetMarkup
    cases widgetShape strOf var current with
    | error exn => rfl
    | ok shape => rfl
  rw [hmap]
  unfold renderWidget widgetShape
  cases hchoices : enumChoices strOf var with
  | error exn => rfl
  | ok choices =>
      have hne (picked : List (Value × Text)) (h : choices = some picked) : picked ≠ [] :=
        enumChoices_ne_nil (hchoices.trans (congrArg Except.ok h))
      simp only [bind, Except.bind]
      split
      · cases choices with
        | some picked => exact congrArg Except.ok (renderChoice_eq (hne picked rfl))
        | none => exact renderBounded_eq
      · split
        · cases choices with
          | some picked => exact congrArg Except.ok (renderChoice_eq (hne picked rfl))
          | none => exact congrArg Except.ok renderNumber_eq
        · split
          · refine congrArg Except.ok ?_
            split
            · exact renderRadio_eq _ _
            · exact renderBool_eq
          · split
            · cases choices with
              | some picked => exact congrArg Except.ok (renderChoice_eq (hne picked rfl))
              | none => exact congrArg Except.ok renderTextShape_eq
            · exact congrArg Except.ok renderText_eq

end Written

end Stra2us.Page.Markup
