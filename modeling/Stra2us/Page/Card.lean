import Stra2us.Foundation.Substitute
import Stra2us.Page.WellFormed

namespace Stra2us.Page.Markup

open Foundation Server
open Foundation.Html (Piece)
open Foundation.Substitute (replaceOnce Quiet)

section Source

variable (strOf : Value → Text) (fullmatch : Value → Text → Except Exn Bool)
-- The markup of a block of Markdown, by its id and its source.
variable (renderMarkdownBlock : Text → Value → Except Exn Text)
variable (name : Text) (var : Var) (current : Option Text)

def renderPlainHelp : Text :=
  match Value.lookup var "help".toList with
  | some help =>
      if help.truthy then
        "<div class=\"setting-help\">".toList ++ esc strOf help ++ "</div>".toList
      else []
  | none => []

def renderHelpMarkdown : Except Exn Text :=
  match Value.lookup var "help_markdown".toList with
  | some source =>
      if source.truthy then do
        let rendered ← renderMarkdownBlock ("help.".toList ++ name) source
        .ok ("<div class=\"setting-help-md\">".toList ++ rendered ++ "</div>".toList)
      else .ok []
  | none => .ok []

def renderHelp : Except Exn Text := do
  .ok (renderPlainHelp strOf var ++ (← renderHelpMarkdown renderMarkdownBlock name var))

def renderOffSpecBadge : Text :=
  "<span class=\"setting-warning\" role=\"status\">".toList ++ "<strong>".toList ++
    Html.escape (current.getD []) ++ "</strong>".toList ++
      " &mdash; not in current allowed values".toList ++ "</span>".toList

def labelOf : Value :=
  match Value.lookup var "label".toList with
  | some label => if label.truthy then label else .str name
  | none => .str name

def fieldId : Text :=
  attr "id" ("field-".toList ++ Html.escape name)

-- The id is spliced in behind the name, and the mark of a default behind the id.
def withId (widget : Text) (fromDefault : Bool) : Text :=
  let tagged := replaceOnce (attr "name" (Html.escape name))
    (attr "name" (Html.escape name) ++ " ".toList ++ fieldId name) widget
  if fromDefault then
    replaceOnce (fieldId name) (fieldId name ++ " data-from-default=\"true\"".toList) tagged
  else tagged

def revealButton : Text :=
  if widgetIs var "secret" ∧ ¬ isWriteOnly var then
    "<button type=\"button\" class=\"reveal-btn\" ".toList ++ attr "data-var" (Html.escape name) ++
      ">Show</button>".toList
  else []

def renderSettingCard (fromDefault : Bool) : Except Exn Text := do
  let help ← renderHelp strOf renderMarkdownBlock name var
  let offSpec ← isOffSpec strOf fullmatch var current
  let widget ← renderWidget strOf name var current
  .ok ("<div class=\"setting-card\" ".toList ++ attr "data-var" (Html.escape name) ++ ">".toList ++
    "<label class=\"setting-label\" for=\"field-".toList ++ Html.escape name ++ "\">".toList ++
      esc strOf (labelOf name var) ++ "</label>".toList ++ help ++
        (if offSpec then renderOffSpecBadge current else []) ++
          withId name widget fromDefault ++ revealButton name var ++ "</div>".toList)

end Source

section Spliced

variable {strOf : Value → Text} {var : Var} {current : Option Text} {name : Text}

def inputHead (type : String) : Text :=
  "<input type=\"".toList ++ (type.toList ++ "\" ".toList)

def radioHead : Text :=
  "<div class=\"radio-group\" role=\"radiogroup\">".toList ++
    ("<label class=\"radio-option\">".toList ++ inputHead "radio")

-- All that can stand before the name of the first control.
def heads : List Text :=
  ["<select ".toList, "<textarea ".toList, inputHead "number", inputHead "range",
    inputHead "password", inputHead "text", radioHead]

structure Sound (s : Skeleton) : Prop where
  wellFormed : s.WellFormed
  head : s.head ∈ heads

theorem sound_of {s : Skeleton} (head : Text) (h : s.WellFormed) (hhead : s.head = head)
    (hmem : head ∈ heads) : Sound s :=
  ⟨h, hhead ▸ hmem⟩

-- Every shape has its own beginning.
theorem sound_skeleton (shape : Shape) : Sound (shape.skeleton strOf var current name) := by
  cases shape with
  | select choices =>
      exact sound_of ("<select ".toList) (selectMarkup_wellFormed choices) rfl (by decide)
  | radios first choices =>
      exact sound_of radioHead (radioMarkup_wellFormed first choices) rfl (by decide)
  | number => exact sound_of (inputHead "number") numberMarkup_wellFormed rfl (by decide)
  | slider lo hi display =>
      exact sound_of (inputHead "range") (sliderMarkup_wellFormed lo hi display) rfl
        (by decide)
  | area => exact sound_of ("<textarea ".toList) areaMarkup_wellFormed rfl (by decide)
  | secret =>
      exact sound_of (inputHead "password") secretMarkup_wellFormed rfl (by decide)
  | text => exact sound_of (inputHead "text") textMarkup_wellFormed rfl (by decide)
  | bool => exact sound_of ("<select ".toList) boolMarkup_wellFormed rfl (by decide)

theorem widgetMarkup_sound {s : Skeleton} (h : widgetMarkup strOf var current name = .ok s) :
    Sound s := by
  unfold widgetMarkup at h
  cases hshape : widgetShape strOf var current with
  | error exn =>
      rw [hshape] at h
      cases h
  | ok shape =>
      rw [hshape] at h
      obtain rfl := Except.ok.inj h
      exact sound_skeleton shape

-- Nothing in front of the name begins as the name attribute does, or as the id.
theorem quiet_name {head : Text} (h : head ∈ heads) (value rest : Text) :
    Quiet (attr "name" value) head (attr "name" value ++ rest) := by
  have hall : ∀ head ∈ heads, ∀ suffix ∈ head.tails, suffix ≠ [] →
      ¬ "name=\"".toList <+: suffix ++ "name=\"".toList := by decide +kernel
  intro suffix hne hsuffix hprefix
  refine hall head h suffix ((List.mem_tails _ _).mpr hsuffix) hne ?_
  have hattr : "name=\"".toList <+: attr "name" value := ⟨value ++ ['"'], rfl⟩
  refine List.prefix_of_prefix_length_le (hattr.trans hprefix) ?_ (by simp)
  exact ⟨value ++ '"' :: rest, by simp [attr]⟩

theorem quote_notMem_escape (text : Text) : '"' ∉ Html.escape text := by
  intro h
  obtain ⟨c, -, hc⟩ := List.mem_flatMap.mp h
  unfold Html.escapeChar at hc
  split_ifs at hc with hamp hlt hgt hquote hapostrophe
  · exact absurd hc (by decide)
  · exact absurd hc (by decide)
  · exact absurd hc (by decide)
  · exact absurd hc (by decide)
  · exact absurd hc (by decide)
  · exact hquote (List.mem_singleton.mp hc).symm

-- In a value without quotes none begins either, as the attribute behind it begins with a blank.
theorem quiet_value {value : Text} (h : '"' ∉ value) (more rest : Text) :
    Quiet ('i' :: 'd' :: ("=\"f".toList ++ more)) value ("\" ".toList ++ rest) := by
  induction value with
  | nil => exact Substitute.quiet_nil _ _
  | cons c value ih =>
      rw [List.mem_cons, not_or] at h
      refine Substitute.quiet_cons.mpr ⟨?_, ih h.2⟩
      intro hprefix
      cases value with
      | nil => simp at hprefix
      | cons d value =>
          cases value with
          | nil => simp at hprefix
          | cons e value =>
              cases value with
              | nil => simp at hprefix
              | cons f value =>
                  have hf : f = '"' := by
                    simp at hprefix
                    exact hprefix.2.2.2.1.symm
                  exact h.2 (by simp [hf])

theorem quiet_id {head : Text} (h : head ∈ heads) (name rest : Text) :
    Quiet (fieldId name) (head ++ attr "name" (Html.escape name) ++ " ".toList)
      (fieldId name ++ rest) := by
  have hall : ∀ head ∈ heads, ∀ suffix ∈ (head ++ "name=\"".toList).tails, suffix ≠ [] →
      ¬ ['i', 'd'] <+: suffix ∧ suffix ≠ ['i'] := by decide +kernel
  have hid : fieldId name = 'i' :: 'd' :: ("=\"f".toList ++
      ("ield-".toList ++ (Html.escape name ++ ['"']))) := rfl
  have hsplit : head ++ attr "name" (Html.escape name) ++ " ".toList =
      (head ++ "name=\"".toList) ++ (Html.escape name ++ "\" ".toList) := by
    simp [attr]
  rw [hsplit]
  refine Substitute.quiet_append ?_ (Substitute.quiet_append ?_ ?_)
  · intro suffix hne hsuffix hprefix
    obtain ⟨hlong, hshort⟩ := hall head h suffix ((List.mem_tails _ _).mpr hsuffix) hne
    cases suffix with
    | nil => exact hne rfl
    | cons c suffix =>
        rw [hid] at hprefix
        cases suffix with
        | nil =>
            exact hshort (by rw [(List.cons_prefix_cons.mp hprefix).1])
        | cons d suffix =>
            obtain ⟨hc, hrest⟩ := List.cons_prefix_cons.mp hprefix
            obtain ⟨hd, -⟩ := List.cons_prefix_cons.mp hrest
            rw [← hc, ← hd] at hlong
            exact hlong ⟨suffix, rfl⟩
  · rw [hid]
    exact quiet_value (quote_notMem_escape name) _ _
  · rw [hid]
    exact Substitute.quiet_of_notMem (by decide) _ _

-- What is spliced in behind the name of a variable's first control.
def idAttributes (name : Text) (fromDefault : Bool) : Attributes :=
  valued "id" ("field-".toList ++ name) ::
    if fromDefault then [valued "data-from-default" "true".toList] else []

theorem escape_append (a b : Text) : Html.escape (a ++ b) = Html.escape a ++ Html.escape b :=
  List.flatMap_append

theorem attr_ne_nil (name : String) (value : Text) : attr name value ≠ [] := by
  simp [attr]

theorem fieldId_ne_nil (name : Text) : fieldId name ≠ [] :=
  attr_ne_nil "id" _

theorem fieldId_eq (name : Text) :
    fieldId name = attr "id" (Html.escape ("field-".toList ++ name)) := by
  have hfield : Html.escape "field-".toList = "field-".toList := by decide
  rw [escape_append, hfield]
  rfl

-- The surgery puts both where they belong, whatever the variable is called.
theorem withId_eq {s : Skeleton} (h : Sound s) (name : Text) (fromDefault : Bool) :
    withId name ((s.fill name []).flatMap Piece.write) fromDefault =
      (s.fill name (idAttributes name fromDefault)).flatMap Piece.write := by
  have hname : replaceOnce (attr "name" (Html.escape name))
      (attr "name" (Html.escape name) ++ " ".toList ++ fieldId name)
      ((s.fill name []).flatMap Piece.write) =
        s.head ++ (attr "name" (Html.escape name) ++ " ".toList ++ fieldId name ++ s.tail) := by
    rw [Skeleton.write_fill, List.flatMap_nil, List.nil_append,
      Substitute.replaceOnce_behind (attr_ne_nil _ _) (quiet_name h.head _ _)]
  unfold withId
  rw [hname, Skeleton.write_fill]
  cases fromDefault with
  | false => simp [idAttributes, writeAttribute_valued, fieldId_eq]
  | true =>
      have hdefault : s.head ++ (attr "name" (Html.escape name) ++ " ".toList ++ fieldId name ++
          s.tail) = (s.head ++ attr "name" (Html.escape name) ++ " ".toList) ++
            (fieldId name ++ s.tail) := by
        simp
      rw [hdefault, if_pos rfl, Substitute.replaceOnce_behind (fieldId_ne_nil name)
        (quiet_id h.head name s.tail)]
      simp [idAttributes, writeAttribute_valued, fieldId_eq, attr, Html.escape, Html.escapeChar]

end Spliced

section Markup

variable (strOf : Value → Text) (fullmatch : Value → Text → Except Exn Bool)
variable (renderMarkdownBlock : Text → Value → Except Exn Text)
variable (name : Text) (var : Var) (current : Option Text)

-- What a browser reads a finished piece of markup as.
def readTokens (markup : Text) : List Html.Token :=
  (Html.tokenize markup).getD []

-- An element with nothing but text in it.
def textElement (tag : String) (attributes : Attributes) (text : Text) : List Piece :=
  [.tag [] false tag.toList attributes, .tag text true tag.toList []]

def rawElement (tag : String) (attributes : Attributes) (markup : Text) : List Piece :=
  [.tag [] false tag.toList attributes, .raw markup (readTokens markup) tag.toList]

def plainHelp : List Piece :=
  match Value.lookup var "help".toList with
  | some help =>
      if help.truthy then
        textElement "div" [valued "class" "setting-help".toList] (plain strOf help)
      else []
  | none => []

def markdownHelp : Except Exn (List Piece) :=
  match Value.lookup var "help_markdown".toList with
  | some source =>
      if source.truthy then do
        let rendered ← renderMarkdownBlock ("help.".toList ++ name) source
        .ok (rawElement "div" [valued "class" "setting-help-md".toList] rendered)
      else .ok []
  | none => .ok []

def badgeNote : Piece :=
  .raw " &mdash; not in current allowed values".toList
    (readTokens " &mdash; not in current allowed values".toList) "span".toList

def badge : List Piece :=
  .tag [] false "span".toList
      [valued "class" "setting-warning".toList, valued "role" "status".toList] ::
    (textElement "strong" [] (current.getD []) ++ [badgeNote])

def revealPieces : List Piece :=
  if widgetIs var "secret" ∧ ¬ isWriteOnly var then
    textElement "button" [valued "type" "button".toList, valued "class" "reveal-btn".toList,
      valued "data-var" name] "Show".toList
  else []

def cardPieces (help : List Piece) (offSpec : Bool) (widget : List Piece) : List Piece :=
  .tag [] false "div".toList [valued "class" "setting-card".toList, valued "data-var" name] ::
    (textElement "label" [valued "class" "setting-label".toList,
        valued "for" ("field-".toList ++ name)] (plain strOf (labelOf name var)) ++
      (help ++ ((if offSpec then badge current else []) ++ (widget ++
        (revealPieces name var ++ [.tag [] true "div".toList []])))))

-- The tree of the card of a variable.
def cardMarkup (fromDefault : Bool) : Except Exn (List Piece) := do
  let help ← markdownHelp renderMarkdownBlock name var
  let offSpec ← isOffSpec strOf fullmatch var current
  let widget ← widgetMarkup strOf var current name
  .ok (cardPieces strOf name var current (plainHelp strOf var ++ help) offSpec
    (widget.fill name (idAttributes name fromDefault)))

end Markup

section Steps

variable {α β : Type}

-- A computation that comes out has come through its first step.
theorem exists_of_bind_ok {x : Except Exn α} {f : α → Except Exn β} {b : β}
    (h : x >>= f = .ok b) : ∃ a, x = .ok a ∧ f a = .ok b := by
  cases x with
  | ok a => exact ⟨a, rfl, h⟩
  | error exn => cases h

end Steps

section Cards

variable {strOf : Value → Text} {fullmatch : Value → Text → Except Exn Bool}
variable {renderMarkdownBlock : Text → Value → Except Exn Text}
variable {name : Text} {var : Var} {current : Option Text} {fromDefault : Bool}

theorem renderPlainHelp_eq :
    renderPlainHelp strOf var = (plainHelp strOf var).flatMap Piece.write := by
  unfold renderPlainHelp plainHelp
  cases Value.lookup var "help".toList with
  | none => rfl
  | some help =>
      dsimp only
      split
      · simp [textElement, Piece.write, writeTag_false, writeTag_true, writeAttribute_valued, attr,
          Html.escape, Html.escapeChar, esc]
      · rfl

theorem renderHelpMarkdown_eq : renderHelpMarkdown renderMarkdownBlock name var =
    (markdownHelp renderMarkdownBlock name var).map (·.flatMap Piece.write) := by
  unfold renderHelpMarkdown markdownHelp
  cases Value.lookup var "help_markdown".toList with
  | none => rfl
  | some source =>
      dsimp only
      split
      · cases renderMarkdownBlock ("help.".toList ++ name) source with
        | error exn => rfl
        | ok rendered =>
            refine congrArg Except.ok ?_
            simp [rawElement, Piece.write, writeTag_false, writeTag_true, writeAttribute_valued,
              attr, Html.escape, Html.escapeChar]
      · rfl

theorem renderOffSpecBadge_eq :
    renderOffSpecBadge current = (badge current).flatMap Piece.write := by
  have hnote : badgeNote.write =
      " &mdash; not in current allowed values".toList ++ "</span>".toList := rfl
  unfold renderOffSpecBadge badge
  rw [List.flatMap_cons, List.flatMap_append, List.flatMap_singleton, hnote]
  simp [textElement, Piece.write, writeTag_false, writeTag_true, writeAttribute_valued, attr,
    Html.escape, Html.escapeChar]

theorem revealButton_eq : revealButton name var = (revealPieces name var).flatMap Piece.write := by
  unfold revealButton revealPieces
  split
  · simp [textElement, Piece.write, writeTag_false, writeTag_true, writeAttribute_valued, attr,
      Html.escape, Html.escapeChar]
  · rfl

theorem write_cardPieces (help : List Piece) (offSpec : Bool) (widget : List Piece) :
    (cardPieces strOf name var current help offSpec widget).flatMap Piece.write =
      "<div class=\"setting-card\" ".toList ++ attr "data-var" (Html.escape name) ++ ">".toList ++
        "<label class=\"setting-label\" for=\"field-".toList ++ Html.escape name ++ "\">".toList ++
          esc strOf (labelOf name var) ++ "</label>".toList ++ help.flatMap Piece.write ++
            (if offSpec then renderOffSpecBadge current else []) ++
              widget.flatMap Piece.write ++ revealButton name var ++ "</div>".toList := by
  have hbadge : (if offSpec then badge current else []).flatMap Piece.write =
      if offSpec then renderOffSpecBadge current else [] := by
    cases offSpec with
    | true => exact renderOffSpecBadge_eq.symm
    | false => rfl
  rw [revealButton_eq, ← hbadge]
  simp [cardPieces, textElement, Piece.write, writeTag_false, writeTag_true, writeAttribute_valued,
    attr, Html.escape, Html.escapeChar, esc]

-- The text of a card is its tree, written out.
theorem renderSettingCard_eq :
    renderSettingCard strOf fullmatch renderMarkdownBlock name var current fromDefault =
      (cardMarkup strOf fullmatch renderMarkdownBlock name var current fromDefault).map
        (·.flatMap Piece.write) := by
  unfold renderSettingCard cardMarkup renderHelp
  rw [renderHelpMarkdown_eq, renderWidget_eq]
  cases markdownHelp renderMarkdownBlock name var with
  | error exn => rfl
  | ok help =>
      cases isOffSpec strOf fullmatch var current with
      | error exn => rfl
      | ok offSpec =>
          cases hwidget : widgetMarkup strOf var current name with
          | error exn => rfl
          | ok widget =>
              refine congrArg Except.ok ?_
              dsimp only
              rw [write_cardPieces, List.flatMap_append, ← renderPlainHelp_eq,
                ← withId_eq (widgetMarkup_sound hwidget)]

end Cards

end Stra2us.Page.Markup
