import Stra2us.Foundation.Html
import Stra2us.Foundation.Numerals
import Stra2us.Page.Form

namespace Stra2us.Page.Markup

open Foundation Server

abbrev Var := List (Value × Value)

section Numbers

-- `float()` of whatever it is given.
def pyFloat : Value → Except Exn Binary64
  | .bool b => .ok (.ofRatio false (if b then 1 else 0) 1)
  | .int n =>
      let x := Binary64.ofRatio (n < 0) n.natAbs 1
      if x.isFinite then .ok x else .error (.python "OverflowError".toList)
  | .float x => .ok x
  | .str text =>
      match parseFloat text with
      | some x => .ok x
      | none => .error (.python "ValueError".toList)
  | .surrogates _ => .error (.python "ValueError".toList)
  | .bytes data =>
      if data.all (· < 128) then
        match parseFloat (data.map fun b => Char.ofNat b.toNat) with
        | some x => .ok x
        | none => .error (.python "ValueError".toList)
      else .error (.python "ValueError".toList)
  | _ => .error (.python "TypeError".toList)

def floatLt (a b : Binary64) : Bool :=
  Number.lt (.float a) (.float b)

-- `n > limit` for a length.
def exceeds (n : Nat) : Value → Except Exn Bool
  | .bool b => .ok ((if b then 1 else 0) < n)
  | .int m => .ok (m < n)
  | .float x => .ok (Number.lt (.float x) (.int n))
  | _ => .error (.python "TypeError".toList)

end Numbers

section Reading

variable (strOf : Value → Text) (var : Var)

-- `var.get(name)`, where a null is nothing.
def get (name : String) : Option Value :=
  match Value.lookup var name.toList with
  | some .none => none
  | value => value

def typeIs (type : String) : Bool :=
  fieldIs var "type".toList type.toList

def widgetIs (widget : String) : Bool :=
  fieldIs var "widget".toList widget.toList

def isWriteOnly : Bool :=
  fieldTruthy var "write_only".toList

-- An entry with a value and a label of its own, or one that is both.
def choiceOf : Value → Value × Text
  | .dict entry =>
      match Value.lookup entry "value".toList, Value.lookup entry "label".toList with
      | some value, some label => (value, pyText strOf label)
      | _, _ => (.dict entry, pyText strOf (.dict entry))
  | entry => (entry, pyText strOf entry)

def enumChoices : Except Exn (Option (List (Value × Text))) :=
  match Value.lookup var "enum".toList with
  | some enum =>
      if enum.truthy then do
        let entries ← iterate enum
        .ok (some (entries.map (choiceOf strOf)))
      else legacyChoices
  | none => legacyChoices
where
  legacyChoices : Except Exn (Option (List (Value × Text))) :=
    match Value.lookup var "values".toList with
    | some values =>
        if typeIs var "enum" ∧ values.truthy then do
          let entries ← iterate values
          .ok (some (entries.map fun v => (v, pyText strOf v)))
        else .ok none
    | none => .ok none

def nonNull : Value → Option Value
  | .none => none
  | value => some value

def effectiveMin : Option Value :=
  match get var "min" with
  | some lo => some lo
  | none =>
      match Value.lookup var "range".toList with
      | some (.list (lo :: _)) => nonNull lo
      | _ => none

def effectiveMax : Option Value :=
  match get var "max" with
  | some hi => some hi
  | none =>
      match Value.lookup var "range".toList with
      | some (.list (_ :: hi :: _)) => nonNull hi
      | _ => none

def isNumeric : Bool :=
  typeIs var "int" || typeIs var "float"

end Reading

section OffSpec

variable (strOf : Value → Text) (fullmatch : Value → Text → Except Exn Bool) (var : Var)

def belowMin (n : Binary64) : Except Exn Bool :=
  match effectiveMin var with
  | some lo => do .ok (floatLt n (← pyFloat lo))
  | none => .ok false

def aboveMax (n : Binary64) : Except Exn Bool :=
  match effectiveMax var with
  | some hi => do .ok (floatLt (← pyFloat hi) n)
  | none => .ok false

def offRange (current : Text) : Except Exn Bool :=
  match parseFloat current with
  | none => .ok true
  | some n => do
      if ← belowMin var n then .ok true else aboveMax var n

def tooLong (current : Text) : Except Exn Bool :=
  match get var "max_length" with
  | some limit => exceeds current.length limit
  | none => .ok false

-- A pattern that is none is passed over.
def offPattern (current : Text) : Except Exn Bool :=
  match get var "pattern" with
  | some pattern =>
      match fullmatch pattern current with
      | .ok matched => .ok (!matched)
      | .error exn => if exn = .python "error".toList then .ok false else .error exn
  | none => .ok false

-- Whether the value breaks what the catalog says of the variable.
def isOffSpec (current : Option Text) : Except Exn Bool :=
  match current with
  | none | some [] => .ok false
  | some current => do
      match ← enumChoices strOf var with
      | some choices =>
          .ok (!(choices.any fun choice => isText choice.1 current) &&
            !(choices.any fun choice => pyText strOf choice.1 = current))
      | none =>
          if isNumeric var then offRange var current
          else if typeIs var "string" then do
            if ← tooLong var current then .ok true else offPattern fullmatch var current
          else .ok false

end OffSpec

section Escaped

variable (strOf : Value → Text)

-- The text of a value in the markup, where a null is empty.
def plain : Value → Text
  | .none => []
  | value => pyText strOf value

def esc (value : Value) : Text :=
  Html.escape (plain strOf value)

-- `name="value"`, with the value as it is.
def attr (name : String) (value : Text) : Text :=
  name.toList ++ ("=\"".toList ++ (value ++ ['"']))

def joined (parts : List Text) : Text :=
  List.intercalate [' '] parts

end Escaped

section Widgets

variable (strOf : Value → Text) (name : Text) (var : Var) (current : Option Text)

-- What every control carries.
def commonAttrs : Text :=
  joined ([attr "name" (Html.escape name), attr "data-original" (Html.escape (current.getD []))] ++
    if isWriteOnly var then [attr "data-write-only" "true".toList] else [])

def oneLine (help : Value) : Text :=
  strip ((pyText strOf help).map fun c => if c = '\n' then ' ' else c)

def helpTextAttr : Text :=
  match Value.lookup var "help".toList with
  | some help =>
      if help.truthy then ' ' :: attr "title" (Html.escape (oneLine strOf help)) else []
  | none => []

def renderOption (choice : Value × Text) : Text :=
  "<option ".toList ++ attr "value" (esc strOf choice.1) ++
    (if isCurrent (pyText strOf choice.1) current then " selected".toList else []) ++ ">".toList ++
      Html.escape choice.2 ++ "</option>".toList

def renderSelect (choices : List (Value × Text)) : Text :=
  "<select ".toList ++ commonAttrs name var current ++ helpTextAttr strOf var ++ ">\n".toList ++
    List.intercalate ['\n'] (choices.map (renderOption strOf current)) ++ "\n</select>".toList

def renderRadioItem (choice : Value × Text) : Text :=
  "<label class=\"radio-option\">".toList ++ "<input type=\"radio\" ".toList ++
    attr "name" (Html.escape name) ++ " ".toList ++ attr "value" (esc strOf choice.1) ++
      (if isCurrent (pyText strOf choice.1) current then " checked".toList else []) ++
        " ".toList ++ attr "data-original" (Html.escape (current.getD [])) ++
          (if isWriteOnly var then " data-write-only=\"true\"".toList else []) ++ ">".toList ++
            " ".toList ++ Html.escape choice.2 ++ "</label>".toList

def renderRadio (choices : List (Value × Text)) : Text :=
  "<div class=\"radio-group\" role=\"radiogroup\">".toList ++
    (choices.map (renderRadioItem strOf name var current)).flatten ++ "</div>".toList

-- An attribute for a hint that is there.
def hintAttr (name : String) (hint : Option Value) : List Text :=
  match hint with
  | some value => [attr name (esc strOf value)]
  | none => []

def stepAttr : List Text :=
  match get var "step" with
  | some step => [attr "step" (esc strOf step)]
  | none => if typeIs var "float" then [attr "step" "any".toList] else []

def renderNumber : Text :=
  joined (["<input type=\"number\" ".toList ++ commonAttrs name var current] ++
    hintAttr strOf "min" (effectiveMin var) ++ hintAttr strOf "max" (effectiveMax var) ++
      stepAttr strOf var ++ [attr "value" (Html.escape (current.getD []))]) ++
        helpTextAttr strOf var ++ ">".toList

-- Pinned to the end of the range that it is beyond. What is no number is shown as the least.
def displayValue (lo hi : Value) : Except Exn Value :=
  match current with
  | none => .ok .none
  | some [] => .ok (.str [])
  | some current =>
      let pinned : Except Exn Value := do
        let n ← pyFloat (.str current)
        if floatLt n (← pyFloat lo) then .ok lo
        else if floatLt (← pyFloat hi) n then .ok hi
        else .ok (.str current)
      match pinned with
      | .ok value => .ok value
      | .error exn =>
          if exn = .python "TypeError".toList ∨ exn = .python "ValueError".toList then .ok lo
          else .error exn

def renderSlider : Except Exn Text :=
  match effectiveMin var, effectiveMax var with
  | some lo, some hi => do
      let display ← displayValue current lo hi
      .ok ("<input type=\"range\" ".toList ++ commonAttrs name var current ++ " ".toList ++
        attr "min" (esc strOf lo) ++ " ".toList ++ attr "max" (esc strOf hi) ++
          (hintAttr strOf "step" (get var "step")).flatMap (' ' :: ·) ++ " ".toList ++
            attr "value" (esc strOf display) ++ helpTextAttr strOf var ++ ">".toList)
  | _, _ => .ok (renderNumber strOf name var current)

-- A value that may only be written is not shown.
def shownText : Text :=
  if isWriteOnly var then [] else current.getD []

def maxLengthAttr : List Text :=
  hintAttr strOf "maxlength" (get var "max_length")

def renderTextarea : Text :=
  joined (["<textarea ".toList ++ commonAttrs name var current] ++ maxLengthAttr strOf var ++
    [attr "rows" "4".toList]) ++ helpTextAttr strOf var ++ ">".toList ++
      Html.escape (shownText var current) ++ "</textarea>".toList

def renderSecret : Text :=
  joined (["<input type=\"password\" ".toList ++ commonAttrs name var current,
    attr "value" (Html.escape (shownText var current)),
    attr "autocomplete" "new-password".toList] ++ maxLengthAttr strOf var) ++
      helpTextAttr strOf var ++ ">".toList

def renderText : Text :=
  joined (["<input type=\"text\" ".toList ++ commonAttrs name var current,
    attr "value" (Html.escape (shownText var current))] ++
      hintAttr strOf "pattern" (get var "pattern") ++ maxLengthAttr strOf var) ++
        helpTextAttr strOf var ++ ">".toList

def boolOption (value : String) : Text :=
  "<option ".toList ++ attr "value" value.toList ++
    (if (current.getD []).map Char.toLower = value.toList then " selected".toList else []) ++
      ">".toList ++ value.toList ++ "</option>".toList

def renderBool : Text :=
  "<select ".toList ++ commonAttrs name var current ++ helpTextAttr strOf var ++ ">".toList ++
    (["true", "false"].map (boolOption current)).flatten ++ "</select>".toList

def boolChoices : List (Value × Text) :=
  ["true", "false"].map fun word => (.str word.toList, word.toList)

-- Which control is drawn. A hint narrows what the type allows and never leaves it.
def renderWidget : Except Exn Text := do
  let choices ← enumChoices strOf var
  if typeIs var "int" then
    match choices with
    | some choices =>
        .ok (if widgetIs var "radio" then renderRadio strOf name var current choices
          else renderSelect strOf name var current choices)
    | none =>
        if widgetIs var "slider" ∧ (effectiveMin var).isSome ∧ (effectiveMax var).isSome then
          renderSlider strOf name var current
        else .ok (renderNumber strOf name var current)
  else if typeIs var "float" then
    match choices with
    | some choices =>
        .ok (if widgetIs var "radio" then renderRadio strOf name var current choices
          else renderSelect strOf name var current choices)
    | none => .ok (renderNumber strOf name var current)
  else if typeIs var "bool" then
    .ok (if widgetIs var "radio" then renderRadio strOf name var current boolChoices
      else renderBool strOf name var current)
  else if typeIs var "string" ∨ typeIs var "enum" then
    match choices with
    | some choices =>
        .ok (if widgetIs var "radio" then renderRadio strOf name var current choices
          else renderSelect strOf name var current choices)
    | none =>
        .ok (if fieldTruthy var "multiline".toList then renderTextarea strOf name var current
          else if widgetIs var "secret" then renderSecret strOf name var current
          else renderText strOf name var current)
  else .ok (renderText strOf name var current)

end Widgets

end Stra2us.Page.Markup
