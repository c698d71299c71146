import Stra2us.Page.Law
import Stra2us.Page.Render

namespace Stra2us.Page.Markup

open Foundation Server
open Foundation.Html (Piece Token)
open Touched (Element ElementKind PlainKind Field Form)

section Browser

def attributeOf (attributes : List (Text × Text)) (name : String) : Option Text :=
  (attributes.find? fun a => a.1 = name.toList).map Prod.snd

def hasAttribute (attributes : List (Text × Text)) (name : String) : Bool :=
  (attributeOf attributes name).isSome

def isMarked (attributes : List (Text × Text)) (name : String) : Bool :=
  attributeOf attributes name = some "true".toList

-- A number as a form field takes it: digits on at least one side of the point, and none missing
-- behind it.
def isFloatingPoint (text : Text) : Bool :=
  let unsigned := if text.head? = some '-' then text.drop 1 else text
  let (whole, rest) := Json.takeDigits unsigned
  let (fraction, rest) := match rest with
    | '.' :: rest => (some (Json.takeDigits rest).1, (Json.takeDigits rest).2)
    | _ => (none, rest)
  let exponent := match rest with
    | [] => true
    | c :: rest =>
        let digits := if rest.head? = some '-' ∨ rest.head? = some '+' then rest.drop 1 else rest
        (c = 'e' || c = 'E') && digits ≠ [] && digits.all Char.isDigit
  (whole ≠ [] || fraction.isSome) && fraction ≠ some [] && exponent

-- What a control that is one line of text makes of its value. Where a slider stands is left open.
variable (pinned : List (Text × Text) → Text)

def liveText (kind : PlainKind) (attributes : List (Text × Text)) : Text :=
  let value := (attributeOf attributes "value").getD []
  match kind with
  | .number => if isFloatingPoint value then value else []
  | .range => pinned attributes
  | _ => value.filter fun c => c ≠ '\n' ∧ c ≠ '\r'

def inputKind (attributes : List (Text × Text)) : ElementKind :=
  match attributeOf attributes "type" with
  | none => .plain .text
  | some type =>
      if type = "radio".toList then .radio
      else if type = "checkbox".toList then .checkbox
      else if type ∈ ["submit", "button", "image", "reset"].map String.toList then .command
      else if type = "number".toList then .plain .number
      else if type = "range".toList then .plain .range
      else if type = "password".toList then .plain .password
      else .plain .text

-- The text up to the next tag. A line feed right behind the opening tag is dropped.
def areaText : List Token → Text
  | .char c :: rest => c :: areaText rest
  | _ => []

def dropNewline : Text → Text
  | '\n' :: rest => rest
  | text => text

-- The values of the options of a list, and whether each is marked as selected.
def listOptions : List Token → List (Text × Bool)
  | [] => []
  | .char _ :: rest => listOptions rest
  | .tag tag :: rest =>
      if tag.closing ∧ tag.name = "select".toList then []
      else if ¬ tag.closing ∧ tag.name = "option".toList then
        ((attributeOf tag.attributes "value").getD [], hasAttribute tag.attributes "selected") ::
          listOptions rest
      else listOptions rest

-- The last one that is marked, else the first.
def chosen (options : List (Text × Bool)) : Text :=
  match options.reverse.find? Prod.snd with
  | some option => option.1
  | none => (options.head?.map Prod.fst).getD []

def controlElement (kind : ElementKind) (name value : Text) (attributes : List (Text × Text)) :
    Element where
  kind := kind
  name := name
  place := 0
  value := value
  checked := hasAttribute attributes "checked"
  dataOriginal := attributeOf attributes "data-original"
  writeOnly := isMarked attributes "data-write-only"
  fromDefault := isMarked attributes "data-from-default"
  dirty := false
  bound := false

-- The control that a tag begins, with the tokens behind it.
def readControl (tag : Html.Tag) (rest : List Token) : Option Element :=
  if tag.closing then none
  else
    match attributeOf tag.attributes "name" with
    | none => none
    | some name =>
        if tag.name = "input".toList then
          let kind := inputKind tag.attributes
          let value := match kind with
            | .plain kind => liveText pinned kind tag.attributes
            | _ => (attributeOf tag.attributes "value").getD []
          some (controlElement kind name value tag.attributes)
        else if tag.name = "textarea".toList then
          some (controlElement (.plain .textarea) name (dropNewline (areaText rest)) tag.attributes)
        else if tag.name = "select".toList then
          some (controlElement (.plain .select) name (chosen (listOptions rest)) tag.attributes)
        else none

def controlsFrom : List Token → List Element
  | [] => []
  | .char _ :: rest => controlsFrom rest
  | .tag tag :: rest => (readControl pinned tag rest).toList ++ controlsFrom rest

-- Of the radio buttons of a name only the last one that is marked stays so.
def settle : List Element → List Element
  | [] => []
  | el :: rest =>
      let later := rest.any fun other =>
        other.kind = .radio && other.name = el.name && other.checked
      { el with checked := el.checked && !(el.kind = .radio && later) } :: settle rest

-- Numbered among the controls of a name.
def numbered : List Text → List Element → List Element
  | _, [] => []
  | seen, el :: rest =>
      { el with place := seen.count el.name } :: numbered (seen ++ [el.name]) rest

-- The fields that the page's script manages, as the document has them when it is loaded.
def documentElements (tokens : List Token) : List Element :=
  numbered [] (settle (controlsFrom pinned tokens))

end Browser

section Fields

variable (strOf : Value → Text) (pinned : List (Text × Text) → Text)
variable (name : Text) (var : Var) (current : Option Text) (fromDefault : Bool)

def Skeleton.attributes (s : Skeleton) (name : Text) (extra : Attributes) : Attributes :=
  s.before ++ valued "name" name :: (extra ++ s.after)

-- The last of the choices that is current.
def lastCurrent : Nat → List (Value × Text) → Option Nat
  | _, [] => none
  | place, choice :: rest =>
      match lastCurrent (place + 1) rest with
      | some later => some later
      | none => if isCurrent (pyText strOf choice.1) current then some place else none

def choiceValue (choice : Value × Text) : Text :=
  Html.shown (plain strOf choice.1)

def oneLiner (text : Text) : Text :=
  (Html.shown text).filter fun c => c ≠ '\n' ∧ c ≠ '\r'

-- The control that the page is meant to show.
def fieldControl : Shape → Touched.Control
  | .select choices =>
      .plain .select (chosen (choices.map fun choice =>
        (choiceValue strOf choice, isCurrent (pyText strOf choice.1) current)))
  | .radios first rest =>
      .radios ((first :: rest).map (choiceValue strOf)) (lastCurrent strOf current 0 (first :: rest))
  | .number =>
      let value := Html.shown (current.getD [])
      .plain .number (if isFloatingPoint value then value else [])
  | .slider lo hi display =>
      .plain .range (pinned (((sliderMarkup strOf var current lo hi display).attributes name
        (idAttributes name fromDefault)).map Html.shownAttribute))
  | .area => .plain .textarea (dropNewline (Html.shown (shownText var current)))
  | .secret => .plain .password (oneLiner (shownText var current))
  | .text => .plain .text (oneLiner (shownText var current))
  | .bool =>
      .plain .select (chosen (["true", "false"].map fun word =>
        (word.toList, decide ((current.getD []).map Char.toLower = word.toList))))

def fieldOf (shape : Shape) : Field where
  name := Html.shown name
  dataOriginal := Html.shown (current.getD [])
  writeOnly := isWriteOnly var
  fromDefault := fromDefault
  control := fieldControl strOf pinned name var current fromDefault shape

end Fields

section Lookups

variable {strOf : Value → Text} {pinned : List (Text × Text) → Text}
variable {name : Text} {var : Var} {current : Option Text}

-- What the browser has for an attribute that was written.
def shownAs (attributes : Attributes) (label : String) : Option Text :=
  attributeOf (attributes.map Html.shownAttribute) label

theorem shownAs_nil (label : String) : shownAs [] label = none := rfl

theorem shownAs_cons (a : Text × Option Text) (rest : Attributes) (label : String) :
    shownAs (a :: rest) label =
      if a.1 = label.toList then some (Html.shown (a.2.getD [])) else shownAs rest label := by
  unfold shownAs attributeOf
  by_cases h : a.1 = label.toList
  · rw [List.map_cons, List.find?_cons_of_pos (by simp [Html.shownAttribute, h]), if_pos h]
    rfl
  · rw [List.map_cons, List.find?_cons_of_neg (by simp [Html.shownAttribute, h]), if_neg h]

theorem shownAs_valued (field : String) (value : Text) (rest : Attributes) (label : String) :
    shownAs (valued field value :: rest) label =
      if field.toList = label.toList then some (Html.shown value) else shownAs rest label :=
  shownAs_cons (valued field value) rest label

theorem shownAs_append (a b : Attributes) (label : String) :
    shownAs (a ++ b) label = (shownAs a label).or (shownAs b label) := by
  induction a with
  | nil => rfl
  | cons first a ih =>
      rw [List.cons_append, shownAs_cons, shownAs_cons, ih]
      split
      · rfl
      · rfl

theorem shownAs_absent {attributes : Attributes} {label : String} {names : List Text}
    (h : (attributes.map Prod.fst).Sublist names) (hlabel : label.toList ∉ names) :
    shownAs attributes label = none := by
  induction attributes with
  | nil => rfl
  | cons a attributes ih =>
      have hmem := h.subset (List.mem_cons_self (a := a.1) (l := attributes.map Prod.fst))
      rw [shownAs_cons, if_neg fun heq : a.1 = label.toList => hlabel (heq ▸ hmem),
        ih ((List.sublist_cons_self _ _).trans h)]

theorem shown_plain {text : Text} (h : ∀ c ∈ text, c ≠ '\r' ∧ c ≠ Char.ofNat 0) :
    Html.shown text = text := by
  unfold Html.shown
  have hcr : '\r' ∉ text := fun hmem => (h _ hmem).1 rfl
  have hnormal := Html.normalizeNewlines_plain hcr []
  rw [List.append_nil, Html.normalizeNewlines, List.append_nil] at hnormal
  rw [hnormal]
  refine (List.map_congr_left fun c hc => ?_).trans (List.map_id text)
  exact if_neg (h c hc).2

-- The four attributes the script looks for, and nothing in their place.
def managed : List Text :=
  labels ["name", "data-original", "data-write-only", "data-from-default"]

structure Carries (s : Skeleton) (var : Var) (current : Option Text) (pre post : Attributes) :
    Prop where
  after : s.after = pre ++ (ownAttributes var current ++ post)
  before : ∃ names, (s.before.map Prod.fst).Sublist names ∧ ∀ label ∈ managed, label ∉ names
  pre : ∃ names, (pre.map Prod.fst).Sublist names ∧ ∀ label ∈ managed, label ∉ names
  post : ∃ names, (post.map Prod.fst).Sublist names ∧ ∀ label ∈ managed, label ∉ names

theorem absent_of {attributes : Attributes} {label : String} (hlabel : label.toList ∈ managed)
    (h : ∃ names, (attributes.map Prod.fst).Sublist names ∧ ∀ label ∈ managed, label ∉ names) :
    shownAs attributes label = none := by
  obtain ⟨names, hnames, hmanaged⟩ := h
  exact shownAs_absent hnames (hmanaged _ hlabel)

variable {s : Skeleton} {pre post : Attributes}

theorem Carries.shownName (h : Carries s var current pre post) (name : Text) (extra : Attributes) :
    shownAs (s.attributes name extra) "name" = some (Html.shown name) := by
  unfold Skeleton.attributes
  rw [shownAs_append, absent_of (by decide) h.before, shownAs_valued, if_pos rfl]
  rfl

theorem shownAs_own_original : shownAs (ownAttributes var current) "data-original" =
    some (Html.shown (current.getD [])) := by
  unfold ownAttributes
  rw [shownAs_valued]
  rfl

theorem Carries.shownOriginal (h : Carries s var current pre post) (name : Text)
    {extra : Attributes} (hextra : Extra extra) :
    shownAs (s.attributes name extra) "data-original" =
      some (Html.shown (current.getD [])) := by
  unfold Skeleton.attributes
  rw [shownAs_append, absent_of (by decide) h.before, shownAs_valued, if_neg (by decide),
    shownAs_append, shownAs_absent hextra (by decide), h.after, shownAs_append,
    absent_of (by decide) h.pre, shownAs_append, shownAs_own_original]
  rfl

theorem shownAs_own_writeOnly : shownAs (ownAttributes var current) "data-write-only" =
    if isWriteOnly var then some "true".toList else none := by
  have htrue : Html.shown "true".toList = "true".toList := by decide
  unfold ownAttributes
  rw [shownAs_valued, if_neg (by decide)]
  cases isWriteOnly var with
  | true =>
      rw [if_pos rfl, if_pos rfl, shownAs_valued]
      exact congrArg some htrue
  | false => rfl

theorem Carries.shownWriteOnly (h : Carries s var current pre post) (name : Text)
    {extra : Attributes} (hextra : Extra extra) :
    (shownAs (s.attributes name extra) "data-write-only" = some "true".toList) ↔
      isWriteOnly var = true := by
  unfold Skeleton.attributes
  rw [shownAs_append, absent_of (by decide) h.before, shownAs_valued, if_neg (by decide),
    shownAs_append, shownAs_absent hextra (by decide), h.after, shownAs_append,
    absent_of (by decide) h.pre, shownAs_append, shownAs_own_writeOnly,
    absent_of (by decide) h.post]
  cases isWriteOnly var with
  | true => simp
  | false => simp

theorem Carries.shownDefault (h : Carries s var current pre post) (name : Text)
    (extra : Attributes) : shownAs (s.attributes name extra) "data-from-default" =
      shownAs extra "data-from-default" := by
  have hown : shownAs (ownAttributes var current) "data-from-default" = none :=
    shownAs_absent labels_own (by decide)
  have hafter : shownAs s.after "data-from-default" = none := by
    rw [h.after, shownAs_append, absent_of (by decide) h.pre, shownAs_append, hown,
      absent_of (by decide) h.post]
    rfl
  unfold Skeleton.attributes
  rw [shownAs_append, absent_of (by decide) h.before, shownAs_valued, if_neg (by decide),
    shownAs_append, hafter]
  exact Option.or_none

theorem shownAs_idAttributes (name : Text) (fromDefault : Bool) :
    (shownAs (idAttributes name fromDefault) "data-from-default" = some "true".toList) ↔
      fromDefault = true := by
  have htrue : Html.shown "true".toList = "true".toList := by decide
  unfold idAttributes
  rw [shownAs_valued, if_neg (by decide)]
  cases fromDefault with
  | true =>
      rw [if_pos rfl, shownAs_valued, if_pos rfl, htrue]
      exact iff_of_true rfl rfl
  | false =>
      rw [if_neg Bool.false_ne_true, shownAs_nil]
      simp

-- Where each shape has the attributes of its own.
theorem carries_input (type : String) {post : Attributes} (names : List Text)
    (h : (post.map Prod.fst).Sublist names) (hnames : ∀ label ∈ managed, label ∉ names) :
    Carries (inputSkeleton type (ownAttributes var current ++ post)) var current [] post where
  after := rfl
  before := ⟨labels ["type"], List.Sublist.refl _, by decide⟩
  pre := ⟨[], List.Sublist.refl _, by decide⟩
  post := ⟨names, h, hnames⟩

theorem carries_select (rest : List Piece) : Carries
    (selectSkeleton (ownAttributes var current ++ helpAttributes strOf var) rest) var current []
      (helpAttributes strOf var) where
  after := rfl
  before := ⟨[], List.Sublist.refl _, by decide⟩
  pre := ⟨[], List.Sublist.refl _, by decide⟩
  post := ⟨labels ["title"], labels_help, by decide⟩

theorem carries_radio (first : Value × Text) (choices : List (Value × Text)) :
    Carries (radioMarkup strOf var current name first choices) var current
      (valued "value" (plain strOf first.1) ::
        markIf "checked" (isCurrent (pyText strOf first.1) current)) [] where
  after := by simp [radioMarkup, radioRest]
  before := ⟨labels ["type"], List.Sublist.refl _, by decide⟩
  pre := ⟨labels ["value"] ++ labels ["checked"],
    List.Sublist.cons_cons _ (labels_markIf "checked" _), by decide⟩
  post := ⟨[], List.Sublist.refl _, by decide⟩

theorem carries_area : Carries (areaMarkup strOf var current) var current []
    (lengthAttributes strOf var ++ valued "rows" "4".toList :: helpAttributes strOf var) where
  after := rfl
  before := ⟨[], List.Sublist.refl _, by decide⟩
  pre := ⟨[], List.Sublist.refl _, by decide⟩
  post := by
    refine ⟨labels ["maxlength"] ++ (labels ["rows"] ++ labels ["title"]), ?_, by decide⟩
    rw [List.map_append, List.map_cons]
    exact (labels_optional "maxlength" _).append (List.Sublist.cons_cons _ labels_help)

end Lookups

section Elements

variable (strOf : Value → Text) (pinned : List (Text × Text) → Text)
variable (name : Text) (fromDefault : Bool) (shape : Shape)
variable {var : Var} {current : Option Text}

theorem controlElement_eq {s : Skeleton} {pre post extra : Attributes} {marked : Bool}
    (h : Carries s var current pre post) (hextra : Extra extra)
    (hmarked : (shownAs extra "data-from-default" = some "true".toList) ↔ marked = true)
    (kind : ElementKind) (value : Text) :
    controlElement kind (Html.shown name) value
        ((s.attributes name extra).map Html.shownAttribute) =
      { (fieldOf strOf pinned name var current fromDefault shape).element kind 0 value
          (shownAs (s.attributes name extra) "checked").isSome with fromDefault := marked } := by
  have hwrite : isMarked ((s.attributes name extra).map Html.shownAttribute) "data-write-only" =
      isWriteOnly var := by
    rw [Bool.eq_iff_iff, ← h.shownWriteOnly name hextra]
    exact decide_eq_true_iff
  have hdefault : isMarked ((s.attributes name extra).map Html.shownAttribute)
      "data-from-default" = marked := by
    rw [Bool.eq_iff_iff, ← hmarked, ← h.shownDefault name extra]
    exact decide_eq_true_iff
  have horiginal := h.shownOriginal name hextra
  unfold controlElement Field.element fieldOf
  rw [hwrite, hdefault]
  unfold shownAs at horiginal
  rw [horiginal]
  simp [hasAttribute, shownAs]

-- The first control of a variable.
theorem firstElement_eq {s : Skeleton} {pre post : Attributes}
    (h : Carries s var current pre post) (kind : ElementKind) (value : Text) :
    controlElement kind (Html.shown name) value
        ((s.attributes name (idAttributes name fromDefault)).map Html.shownAttribute) =
      (fieldOf strOf pinned name var current fromDefault shape).element kind 0 value
        (shownAs (s.attributes name (idAttributes name fromDefault)) "checked").isSome := by
  rw [controlElement_eq strOf pinned name fromDefault shape h (extra_idAttributes name fromDefault)
    (shownAs_idAttributes name fromDefault)]
  simp [Field.element, fieldOf]

end Elements

section Shapes

variable {strOf : Value → Text} {pinned : List (Text × Text) → Text}
variable {name : Text} {var : Var} {current : Option Text} {fromDefault : Bool}
variable {rest : List Token}

-- Tokens that begin no control.
def Silent (tokens : List Token) : Prop :=
  ∀ tag, .tag tag ∈ tokens →
    tag.closing = true ∨ tag.name ∉ labels ["input", "textarea", "select"]

theorem silent_append {a b : List Token} (ha : Silent a) (hb : Silent b) : Silent (a ++ b) := by
  intro tag htag
  rcases List.mem_append.mp htag with h | h
  · exact ha tag h
  · exact hb tag h

theorem silent_chars (text : Text) : Silent (text.map .char) := by
  intro tag htag
  obtain ⟨c, -, hc⟩ := List.mem_map.mp htag
  cases hc

theorem readControl_silent {tag : Html.Tag}
    (h : tag.closing = true ∨ tag.name ∉ labels ["input", "textarea", "select"]) :
    readControl pinned tag rest = none := by
  unfold readControl
  rcases h with h | h
  · rw [if_pos h]
  · split
    · rfl
    · split
      · rfl
      · rw [if_neg fun heq => h (by rw [heq]; decide), if_neg fun heq => h (by rw [heq]; decide),
          if_neg fun heq => h (by rw [heq]; decide)]

theorem controlsFrom_silent {tokens : List Token} (h : Silent tokens) (rest : List Token) :
    controlsFrom pinned (tokens ++ rest) = controlsFrom pinned rest := by
  induction tokens with
  | nil => rfl
  | cons token tokens ih =>
      have htail : Silent tokens := fun tag htag => h tag (List.mem_cons_of_mem _ htag)
      cases token with
      | char c => exact ih htail
      | tag tag =>
          rw [List.cons_append, controlsFrom, readControl_silent (h tag List.mem_cons_self),
            ih htail]
          rfl

theorem shownAs_own_absent {label : String}
    (h : label.toList ∉ labels ["data-original", "data-write-only"]) :
    shownAs (ownAttributes var current) label = none :=
  shownAs_absent labels_own h

-- A control that is one tag, whatever stands behind it.
theorem controls_input {type : String} {post : Attributes} {kind : PlainKind} {value : Text}
    {shape : Shape} (names : List Text) (hnames : (post.map Prod.fst).Sublist names)
    (hmanaged : ∀ label ∈ managed, label ∉ names) (hchecked : "checked".toList ∉ names)
    (htype : ∀ attributes : List (Text × Text),
      attributeOf attributes "type" = some (Html.shown type.toList) →
        inputKind attributes = .plain kind)
    (hvalue : liveText pinned kind (((inputSkeleton type (ownAttributes var current ++
      post)).attributes name (idAttributes name fromDefault)).map Html.shownAttribute) = value) :
    controlsFrom pinned (((inputSkeleton type (ownAttributes var current ++ post)).fill name
        (idAttributes name fromDefault)).flatMap Piece.tokens ++ rest) =
      (fieldOf strOf pinned name var current fromDefault shape).element (.plain kind) 0 value
        false :: controlsFrom pinned rest := by
  have hcarries := @carries_input var current type post names hnames hmanaged
  have hkind := htype (((inputSkeleton type (ownAttributes var current ++ post)).attributes name
    (idAttributes name fromDefault)).map Html.shownAttribute) rfl
  have hnone : shownAs ((inputSkeleton type (ownAttributes var current ++ post)).attributes name
      (idAttributes name fromDefault)) "checked" = none := by
    have hid : shownAs (idAttributes name fromDefault) "checked" = none :=
      shownAs_absent (extra_idAttributes name fromDefault) (by decide)
    unfold Skeleton.attributes inputSkeleton
    rw [List.singleton_append, shownAs_valued, if_neg (by decide), shownAs_valued,
      if_neg (by decide), shownAs_append, hid, shownAs_append, shownAs_own_absent (by decide),
      shownAs_absent hnames hchecked]
    rfl
  have helement := firstElement_eq strOf pinned name fromDefault shape hcarries (.plain kind) value
  rw [hnone] at helement
  have hname := hcarries.shownName name (idAttributes name fromDefault)
  unfold shownAs at hname
  have hread : readControl pinned ⟨false, "input".toList, ((inputSkeleton type
      (ownAttributes var current ++ post)).attributes name (idAttributes name fromDefault)).map
        Html.shownAttribute⟩ rest =
      some ((fieldOf strOf pinned name var current fromDefault shape).element (.plain kind) 0 value
        false) := by
    unfold readControl
    dsimp only
    rw [if_neg Bool.false_ne_true, hname]
    dsimp only
    rw [if_pos rfl, hkind]
    dsimp only
    rw [hvalue, helement]
    rfl
  have htokens : ((inputSkeleton type (ownAttributes var current ++ post)).fill name
      (idAttributes name fromDefault)).flatMap Piece.tokens =
        [.tag ⟨false, "input".toList, ((inputSkeleton type
          (ownAttributes var current ++ post)).attributes name
            (idAttributes name fromDefault)).map Html.shownAttribute⟩] := rfl
  rw [htokens, List.singleton_append, controlsFrom, hread]
  rfl

theorem shownAs_input (type : String) (post : Attributes) :
    shownAs ((inputSkeleton type (ownAttributes var current ++ post)).attributes name
      (idAttributes name fromDefault)) "value" = shownAs post "value" := by
  have hid : shownAs (idAttributes name fromDefault) "value" = none :=
    shownAs_absent (extra_idAttributes name fromDefault) (by decide)
  unfold Skeleton.attributes inputSkeleton
  rw [List.singleton_append, shownAs_valued, if_neg (by decide), shownAs_valued,
    if_neg (by decide), shownAs_append, hid, shownAs_append, shownAs_own_absent (by decide)]
  rfl

theorem liveText_input {type : String} {post : Attributes} {value : Text}
    (h : shownAs post "value" = some value) :
    (attributeOf (((inputSkeleton type (ownAttributes var current ++ post)).attributes name
      (idAttributes name fromDefault)).map Html.shownAttribute) "value").getD [] = value := by
  have hvalue := @shownAs_input name var current fromDefault type post
  unfold shownAs at hvalue
  rw [hvalue]
  exact congrArg (fun o => o.getD []) h

-- What the controls of a shape are read as, before the radio buttons of a name are settled.
def readElements (strOf : Value → Text) (pinned : List (Text × Text) → Text) (name : Text)
    (var : Var) (current : Option Text) (fromDefault : Bool) (shape : Shape) : List Element :=
  let field := fieldOf strOf pinned name var current fromDefault shape
  match shape with
  | .radios first choices =>
      { field.element .radio 0 (choiceValue strOf first)
          (isCurrent (pyText strOf first.1) current) with fromDefault := fromDefault } ::
        choices.map fun choice =>
          { field.element .radio 0 (choiceValue strOf choice)
              (isCurrent (pyText strOf choice.1) current) with fromDefault := false }
  | _ =>
      match field.control with
      | .plain kind value => [field.element (.plain kind) 0 value false]
      | _ => []

def Reads (strOf : Value → Text) (pinned : List (Text × Text) → Text) (name : Text) (var : Var)
    (current : Option Text) (fromDefault : Bool) (shape : Shape) : Prop :=
  ∀ rest, controlsFrom pinned (((shape.skeleton strOf var current name).fill name
      (idAttributes name fromDefault)).flatMap Piece.tokens ++ rest) =
    readElements strOf pinned name var current fromDefault shape ++ controlsFrom pinned rest

theorem reads_number : Reads strOf pinned name var current fromDefault .number := by
  intro rest
  refine controls_input (labels ["min"] ++ (labels ["max"] ++ (labels ["step"] ++
    (labels ["value"] ++ labels ["title"])))) ?_ (by decide) (by decide) ?_ ?_
  · rw [List.map_append, List.map_append, List.map_append, List.map_cons]
    exact (labels_optional "min" _).append ((labels_optional "max" _).append
      (labels_step.append (List.Sublist.cons_cons _ labels_help)))
  · intro attributes h
    unfold inputKind
    rw [h]
    decide
  · have hvalue : shownAs (optional strOf "min" (effectiveMin var) ++
        (optional strOf "max" (effectiveMax var) ++ (stepAttributes strOf var ++
          (valued "value" (current.getD []) :: helpAttributes strOf var)))) "value" =
            some (Html.shown (current.getD [])) := by
      rw [shownAs_append, shownAs_absent (labels_optional "min" _) (by decide), shownAs_append,
        shownAs_absent (labels_optional "max" _) (by decide), shownAs_append,
        shownAs_absent labels_step (by decide), shownAs_valued, if_pos rfl]
      rfl
    unfold liveText
    dsimp only
    rw [liveText_input hvalue]

theorem reads_slider (lo hi display : Value) :
    Reads strOf pinned name var current fromDefault (.slider lo hi display) := by
  intro rest
  refine controls_input (labels ["min", "max"] ++ (labels ["step"] ++
    (labels ["value"] ++ labels ["title"]))) ?_ (by decide) (by decide) ?_ rfl
  · rw [List.map_cons, List.map_cons, List.map_append, List.map_cons]
    exact List.Sublist.cons_cons _ (List.Sublist.cons_cons _
      ((labels_optional "step" _).append (List.Sublist.cons_cons _ labels_help)))
  · intro attributes h
    unfold inputKind
    rw [h]
    decide

theorem reads_secret : Reads strOf pinned name var current fromDefault .secret := by
  intro rest
  refine controls_input (labels ["value", "autocomplete"] ++ (labels ["maxlength"] ++
    labels ["title"])) ?_ (by decide) (by decide) ?_ ?_
  · rw [List.map_cons, List.map_cons, List.map_append]
    exact List.Sublist.cons_cons _ (List.Sublist.cons_cons _
      ((labels_optional "maxlength" _).append labels_help))
  · intro attributes h
    unfold inputKind
    rw [h]
    decide
  · have hvalue : shownAs (valued "value" (shownText var current) ::
        valued "autocomplete" "new-password".toList ::
          (lengthAttributes strOf var ++ helpAttributes strOf var)) "value" =
            some (Html.shown (shownText var current)) := by
      rw [shownAs_valued, if_pos rfl]
    unfold liveText
    dsimp only
    rw [liveText_input hvalue]
    rfl

theorem reads_text : Reads strOf pinned name var current fromDefault .text := by
  intro rest
  refine controls_input (labels ["value"] ++ (labels ["pattern"] ++ (labels ["maxlength"] ++
    labels ["title"]))) ?_ (by decide) (by decide) ?_ ?_
  · rw [List.map_cons, List.map_append, List.map_append]
    exact List.Sublist.cons_cons _ ((labels_optional "pattern" _).append
      ((labels_optional "maxlength" _).append labels_help))
  · intro attributes h
    unfold inputKind
    rw [h]
    decide
  · have hvalue : shownAs (valued "value" (shownText var current) ::
        (optional strOf "pattern" (get var "pattern") ++
          (lengthAttributes strOf var ++ helpAttributes strOf var))) "value" =
            some (Html.shown (shownText var current)) := by
      rw [shownAs_valued, if_pos rfl]
    unfold liveText
    dsimp only
    rw [liveText_input hvalue]
    rfl

theorem areaText_chars (text : Text) (tag : Html.Tag) (rest : List Token) :
    areaText (text.map .char ++ .tag tag :: rest) = text := by
  induction text with
  | nil => rfl
  | cons c text ih => exact congrArg (c :: ·) ih

theorem reads_area : Reads strOf pinned name var current fromDefault .area := by
  intro rest
  have hcarries := @carries_area strOf var current
  have hnone : shownAs ((areaMarkup strOf var current).attributes name
      (idAttributes name fromDefault)) "checked" = none := by
    have hid : shownAs (idAttributes name fromDefault) "checked" = none :=
      shownAs_absent (extra_idAttributes name fromDefault) (by decide)
    unfold Skeleton.attributes areaMarkup
    rw [List.nil_append, shownAs_valued, if_neg (by decide), shownAs_append, hid, shownAs_append,
      shownAs_own_absent (by decide), lengthAttributes, shownAs_append,
      shownAs_absent (labels_optional "maxlength" _) (by decide), shownAs_valued,
      if_neg (by decide), shownAs_absent labels_help (by decide)]
    rfl
  have helement := firstElement_eq strOf pinned name fromDefault .area hcarries (.plain .textarea)
    (dropNewline (Html.shown (shownText var current)))
  rw [hnone] at helement
  have hname := hcarries.shownName name (idAttributes name fromDefault)
  unfold shownAs at hname
  have htokens : ((areaMarkup strOf var current).fill name (idAttributes name
      fromDefault)).flatMap Piece.tokens ++ rest =
        .tag ⟨false, Html.areaName, ((areaMarkup strOf var current).attributes name
          (idAttributes name fromDefault)).map Html.shownAttribute⟩ ::
            ((Html.shown (shownText var current)).map .char ++
              .tag ⟨true, Html.areaName, []⟩ :: rest) := by
    have hfill : (areaMarkup strOf var current).fill name (idAttributes name fromDefault) =
        [.area ((areaMarkup strOf var current).attributes name (idAttributes name fromDefault))
          (shownText var current)] := rfl
    rw [hfill, List.flatMap_singleton, Piece.tokens]
    simp
  have hread : readControl pinned ⟨false, Html.areaName, ((areaMarkup strOf var current).attributes
      name (idAttributes name fromDefault)).map Html.shownAttribute⟩
        ((Html.shown (shownText var current)).map .char ++
          .tag ⟨true, Html.areaName, []⟩ :: rest) =
      some ((fieldOf strOf pinned name var current fromDefault .area).element (.plain .textarea) 0
        (dropNewline (Html.shown (shownText var current))) false) := by
    unfold readControl
    dsimp only
    rw [if_neg Bool.false_ne_true, hname]
    dsimp only
    rw [if_neg (by decide), if_pos (show Html.areaName = "textarea".toList from rfl),
      areaText_chars, helement]
    rfl
  have hsilent : Silent ((Html.shown (shownText var current)).map .char ++
      [.tag ⟨true, Html.areaName, []⟩]) :=
    silent_append (silent_chars _) fun tag htag => by
      rw [Token.tag.inj (List.mem_singleton.mp htag)]
      exact .inl rfl
  have hrest := @controlsFrom_silent pinned _ hsilent rest
  rw [List.append_assoc, List.singleton_append] at hrest
  rw [Shape.skeleton, htokens, controlsFrom, hread, hrest]
  rfl

theorem listOptions_chars (text : Text) (rest : List Token) :
    listOptions (text.map .char ++ rest) = listOptions rest := by
  induction text with
  | nil => rfl
  | cons c text ih => exact ih

-- One option, with what follows it.
theorem listOptions_option {value : Text} {marked : Bool} (before label : Text)
    (rest : List Token) :
    listOptions (([Piece.tag before false "option".toList
        (valued "value" value :: markIf "selected" marked),
      .tag label true "option".toList []] : List Piece).flatMap Piece.tokens ++ rest) =
        (Html.shown value, marked) :: listOptions rest := by
  have hmarked : hasAttribute ((valued "value" value :: markIf "selected" marked).map
      Html.shownAttribute) "selected" = marked := by
    change (shownAs (valued "value" value :: markIf "selected" marked) "selected").isSome = marked
    rw [shownAs_valued, if_neg (by decide)]
    cases marked with
    | true => rfl
    | false => rfl
  have hvalue : (attributeOf ((valued "value" value :: markIf "selected" marked).map
      Html.shownAttribute) "value").getD [] = Html.shown value := by
    change (shownAs (valued "value" value :: markIf "selected" marked) "value").getD [] = _
    rw [shownAs_valued, if_pos rfl]
    rfl
  have hopen (more : List Token) : listOptions (.tag ⟨false, "option".toList,
      (valued "value" value :: markIf "selected" marked).map Html.shownAttribute⟩ :: more) =
        (Html.shown value, marked) :: listOptions more := by
    rw [listOptions, if_neg fun h => Bool.false_ne_true h.1, if_pos ⟨Bool.false_ne_true, rfl⟩,
      hvalue, hmarked]
  have hclose (more : List Token) : listOptions (.tag ⟨true, "option".toList, []⟩ :: more) =
      listOptions more := by
    rw [listOptions, if_neg (by decide), if_neg (by decide)]
  simp only [List.flatMap_cons, List.flatMap_nil, Piece.tokens, List.append_nil,
    List.append_assoc, List.cons_append, List.nil_append, listOptions_chars, hopen, List.map_nil,
    hclose]

theorem listOptions_select (before : Text) (rest : List Token) :
    listOptions ((Piece.tag before true "select".toList []).tokens ++ rest) = [] := by
  rw [Piece.tokens, List.append_assoc, listOptions_chars, List.singleton_append, listOptions,
    if_pos ⟨rfl, rfl⟩]

-- A list with its options, whatever stands behind it.
theorem controls_select {options : List Piece} {values : List (Text × Bool)} (shape : Shape)
    (hsilent : Silent (options.flatMap Piece.tokens))
    (hoptions : ∀ rest, listOptions (options.flatMap Piece.tokens ++ rest) = values) :
    controlsFrom pinned (((selectSkeleton (ownAttributes var current ++ helpAttributes strOf var)
        options).fill name (idAttributes name fromDefault)).flatMap Piece.tokens ++ rest) =
      (fieldOf strOf pinned name var current fromDefault shape).element (.plain .select) 0
        (chosen values) false :: controlsFrom pinned rest := by
  have hcarries := @carries_select strOf var current options
  have hnone : shownAs ((selectSkeleton (ownAttributes var current ++ helpAttributes strOf var)
      options).attributes name (idAttributes name fromDefault)) "checked" = none := by
    have hid : shownAs (idAttributes name fromDefault) "checked" = none :=
      shownAs_absent (extra_idAttributes name fromDefault) (by decide)
    unfold Skeleton.attributes selectSkeleton
    rw [List.nil_append, shownAs_valued, if_neg (by decide), shownAs_append, hid, shownAs_append,
      shownAs_own_absent (by decide), shownAs_absent labels_help (by decide)]
    rfl
  have helement := firstElement_eq strOf pinned name fromDefault shape hcarries (.plain .select)
    (chosen values)
  rw [hnone] at helement
  have hname := hcarries.shownName name (idAttributes name fromDefault)
  unfold shownAs at hname
  have htokens : ((selectSkeleton (ownAttributes var current ++ helpAttributes strOf var)
      options).fill name (idAttributes name fromDefault)).flatMap Piece.tokens ++ rest =
        .tag ⟨false, "select".toList, ((selectSkeleton (ownAttributes var current ++
          helpAttributes strOf var) options).attributes name
            (idAttributes name fromDefault)).map Html.shownAttribute⟩ ::
              (options.flatMap Piece.tokens ++ rest) := rfl
  have hread : readControl pinned ⟨false, "select".toList, ((selectSkeleton (ownAttributes var
      current ++ helpAttributes strOf var) options).attributes name
        (idAttributes name fromDefault)).map Html.shownAttribute⟩
          (options.flatMap Piece.tokens ++ rest) =
      some ((fieldOf strOf pinned name var current fromDefault shape).element (.plain .select) 0
        (chosen values) false) := by
    unfold readControl
    dsimp only
    rw [if_neg Bool.false_ne_true, hname]
    dsimp only
    rw [if_neg (by decide), if_neg (by decide), if_pos rfl, hoptions, helement]
    rfl
  rw [htokens, controlsFrom, hread, controlsFrom_silent hsilent]
  rfl

theorem silent_tag {before tag : Text} {closing : Bool} {attributes : Attributes}
    (h : closing = true ∨ tag ∉ labels ["input", "textarea", "select"]) :
    Silent (Piece.tag before closing tag attributes).tokens := by
  refine silent_append (silent_chars _) fun other hother => ?_
  rw [Token.tag.inj (List.mem_singleton.mp hother)]
  exact h

theorem silent_flatMap {pieces : List Piece} (h : ∀ p ∈ pieces, Silent p.tokens) :
    Silent (pieces.flatMap Piece.tokens) := by
  intro tag htag
  obtain ⟨p, hp, hmem⟩ := List.mem_flatMap.mp htag
  exact h p hp tag hmem

theorem reads_select (choices : List (Value × Text)) :
    Reads strOf pinned name var current fromDefault (.select choices) := by
  intro rest
  refine controls_select (.select choices) (silent_flatMap ?_) ?_
  · intro p hp
    rcases List.mem_append.mp hp with hp | hp
    · obtain ⟨choice, -, hp⟩ := List.mem_flatMap.mp hp
      unfold optionPieces at hp
      rw [List.mem_cons, List.mem_singleton] at hp
      rcases hp with rfl | rfl
      · exact silent_tag (.inr (by decide))
      · exact silent_tag (.inl rfl)
    · rw [List.mem_singleton.mp hp]
      exact silent_tag (.inl rfl)
  · intro rest
    induction choices with
    | nil =>
        rw [List.flatMap_nil, List.nil_append, List.flatMap_singleton, listOptions_select]
        rfl
    | cons choice choices ih =>
        rw [List.flatMap_cons, List.append_assoc, List.flatMap_append, List.append_assoc,
          optionPieces, listOptions_option, ih]
        rfl

theorem reads_bool : Reads strOf pinned name var current fromDefault .bool := by
  have htrue : Html.shown "true".toList = "true".toList := by decide
  have hfalse : Html.shown "false".toList = "false".toList := by decide
  intro rest
  refine controls_select .bool (silent_flatMap ?_) ?_
  · intro p hp
    rcases List.mem_append.mp hp with hp | hp
    · obtain ⟨word, -, hp⟩ := List.mem_flatMap.mp hp
      unfold boolPieces at hp
      rw [List.mem_cons, List.mem_singleton] at hp
      rcases hp with rfl | rfl
      · exact silent_tag (.inr (by decide))
      · exact silent_tag (.inl rfl)
    · rw [List.mem_singleton.mp hp]
      exact silent_tag (.inl rfl)
  · intro rest
    rw [List.flatMap_cons, List.flatMap_cons, List.flatMap_nil, List.append_nil,
      List.append_assoc, List.flatMap_append, List.flatMap_append, List.append_assoc,
      List.append_assoc, List.flatMap_singleton, boolPieces, listOptions_option, boolPieces,
      listOptions_option, listOptions_select, htrue, hfalse]
    rfl

theorem readControl_radio {extra : Attributes} {marked : Bool} (shape : Shape)
    (choice : Value × Text) (hextra : Extra extra)
    (hmarked : (shownAs extra "data-from-default" = some "true".toList) ↔ marked = true) :
    readControl pinned ⟨false, "input".toList, ((radioMarkup strOf var current name choice
        []).attributes name extra).map Html.shownAttribute⟩ rest =
      some { (fieldOf strOf pinned name var current fromDefault shape).element .radio 0
          (choiceValue strOf choice) (isCurrent (pyText strOf choice.1) current) with
        fromDefault := marked } := by
  have hcarries := @carries_radio strOf name var current choice []
  have hchecked : (shownAs ((radioMarkup strOf var current name choice []).attributes name extra)
      "checked").isSome = isCurrent (pyText strOf choice.1) current := by
    unfold Skeleton.attributes radioMarkup radioRest
    rw [List.singleton_append, shownAs_valued, if_neg (by decide), shownAs_valued,
      if_neg (by decide), shownAs_append, shownAs_absent hextra (by decide), shownAs_valued,
      if_neg (by decide), shownAs_append, shownAs_own_absent (by decide)]
    cases isCurrent (pyText strOf choice.1) current with
    | true => rfl
    | false => rfl
  have hvalue : (attributeOf (((radioMarkup strOf var current name choice []).attributes name
      extra).map Html.shownAttribute) "value").getD [] = choiceValue strOf choice := by
    change (shownAs ((radioMarkup strOf var current name choice []).attributes name extra)
      "value").getD [] = _
    unfold Skeleton.attributes radioMarkup radioRest
    rw [List.singleton_append, shownAs_valued, if_neg (by decide), shownAs_valued,
      if_neg (by decide), shownAs_append, shownAs_absent hextra (by decide), shownAs_valued,
      if_pos rfl]
    rfl
  have hkind : inputKind (((radioMarkup strOf var current name choice []).attributes name
      extra).map Html.shownAttribute) = .radio := by
    have htype : attributeOf (((radioMarkup strOf var current name choice []).attributes name
      extra).map Html.shownAttribute) "type" = some (Html.shown "radio".toList) := rfl
    unfold inputKind
    rw [htype]
    decide
  have helement := controlElement_eq strOf pinned name fromDefault shape hcarries hextra hmarked
    .radio (choiceValue strOf choice)
  rw [hchecked] at helement
  have hname := hcarries.shownName name extra
  unfold shownAs at hname
  unfold readControl
  dsimp only
  rw [if_neg Bool.false_ne_true, hname]
  dsimp only
  rw [if_pos rfl, hkind]
  dsimp only
  rw [hvalue, helement]

theorem controls_radioItem (fromDefault : Bool) (shape : Shape) (choice : Value × Text)
    (rest : List Token) :
    controlsFrom pinned ((radioItem strOf var current name choice).flatMap Piece.tokens ++ rest) =
      { (fieldOf strOf pinned name var current fromDefault shape).element .radio 0
          (choiceValue strOf choice) (isCurrent (pyText strOf choice.1) current) with
        fromDefault := false } :: controlsFrom pinned rest := by
  have hfront : Silent (radioFront.flatMap Piece.tokens) := by
    refine silent_flatMap fun p hp => ?_
    rw [List.mem_singleton.mp hp]
    exact silent_tag (.inr (by decide))
  have hback : Silent (Piece.tag (' ' :: choice.2) true "label".toList []).tokens :=
    silent_tag (.inl rfl)
  have hread := fun rest => @readControl_radio strOf pinned name var current fromDefault rest []
    false shape choice (List.nil_sublist _) (by simp [shownAs_nil])
  have htokens : (radioItem strOf var current name choice).flatMap Piece.tokens ++ rest =
      radioFront.flatMap Piece.tokens ++ (.tag ⟨false, "input".toList, ((radioMarkup strOf var
        current name choice []).attributes name []).map Html.shownAttribute⟩ ::
          ((Piece.tag (' ' :: choice.2) true "label".toList []).tokens ++ rest)) := by
    unfold radioItem
    rw [List.flatMap_append, List.append_assoc, List.flatMap_cons, List.flatMap_singleton,
      List.append_assoc]
    rfl
  rw [htokens, controlsFrom_silent hfront, controlsFrom, hread, controlsFrom_silent hback]
  rfl

theorem controls_radioItems (fromDefault : Bool) (shape : Shape)
    (choices : List (Value × Text)) (rest : List Token) :
    controlsFrom pinned ((choices.flatMap (radioItem strOf var current name)).flatMap
        Piece.tokens ++ rest) =
      choices.map (fun choice =>
        { (fieldOf strOf pinned name var current fromDefault shape).element .radio 0
            (choiceValue strOf choice) (isCurrent (pyText strOf choice.1) current) with
          fromDefault := false }) ++ controlsFrom pinned rest := by
  induction choices with
  | nil => rfl
  | cons choice choices ih =>
      rw [List.flatMap_cons, List.flatMap_append, List.append_assoc,
        controls_radioItem fromDefault shape, ih]
      rfl

theorem reads_radios (first : Value × Text) (choices : List (Value × Text)) :
    Reads strOf pinned name var current fromDefault (.radios first choices) := by
  intro rest
  have hfront : Silent ((radioMarkup strOf var current name first choices).front.flatMap
      Piece.tokens) := by
    refine silent_flatMap fun p hp => ?_
    unfold radioMarkup radioFront at hp
    rw [List.mem_cons, List.mem_singleton] at hp
    rcases hp with rfl | rfl
    · exact silent_tag (.inr (by decide))
    · exact silent_tag (.inr (by decide))
  have hlabel : Silent (Piece.tag (' ' :: first.2) true "label".toList []).tokens :=
    silent_tag (.inl rfl)
  have hback : Silent (Piece.tag [] true "div".toList []).tokens := silent_tag (.inl rfl)
  have hread := fun rest => @readControl_radio strOf pinned name var current fromDefault rest
    (idAttributes name fromDefault) fromDefault (.radios first choices) first
    (extra_idAttributes name fromDefault) (shownAs_idAttributes name fromDefault)
  have htokens : ((radioMarkup strOf var current name first choices).fill name (idAttributes name
      fromDefault)).flatMap Piece.tokens ++ rest =
        (radioMarkup strOf var current name first choices).front.flatMap Piece.tokens ++
          (.tag ⟨false, "input".toList, ((radioMarkup strOf var current name first []).attributes
            name (idAttributes name fromDefault)).map Html.shownAttribute⟩ ::
              ((Piece.tag (' ' :: first.2) true "label".toList []).tokens ++
                ((choices.flatMap (radioItem strOf var current name)).flatMap Piece.tokens ++
                  ((Piece.tag [] true "div".toList []).tokens ++ rest)))) := by
    have hfill : (radioMarkup strOf var current name first choices).fill name (idAttributes name
        fromDefault) = (radioMarkup strOf var current name first choices).front ++
          (.tag [] false "input".toList ((radioMarkup strOf var current name first
            []).attributes name (idAttributes name fromDefault)) ::
              .tag (' ' :: first.2) true "label".toList [] ::
                (choices.flatMap (radioItem strOf var current name) ++
                  [.tag [] true "div".toList []])) := rfl
    rw [hfill, List.flatMap_append, List.append_assoc, List.flatMap_cons, List.flatMap_cons,
      List.flatMap_append, List.flatMap_singleton]
    simp [Piece.tokens]
    rfl
  rw [Shape.skeleton, htokens, controlsFrom_silent hfront, controlsFrom, hread,
    controlsFrom_silent hlabel, controls_radioItems fromDefault (.radios first choices),
    controlsFrom_silent hback]
  rfl

-- The tokens of every shape hold the controls that were meant.
theorem reads_shape (shape : Shape) : Reads strOf pinned name var current fromDefault shape := by
  cases shape with
  | select choices => exact reads_select choices
  | radios first choices => exact reads_radios first choices
  | number => exact reads_number
  | slider lo hi display => exact reads_slider lo hi display
  | area => exact reads_area
  | secret => exact reads_secret
  | text => exact reads_text
  | bool => exact reads_bool

end Shapes

end Stra2us.Page.Markup
