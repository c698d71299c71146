import Stra2us.Client.Catalog
import Stra2us.Page.Resolver
import Stra2us.Server.Submit

namespace Stra2us.Page

open Foundation Server

section Render

variable (strOf : Value → Text)

def fieldTruthy (var : List (Value × Value)) (name : Text) : Bool :=
  match Value.lookup var name with
  | some value => value.truthy
  | none => false

def fieldIs (var : List (Value × Value)) (name text : Text) : Bool :=
  match Value.lookup var name with
  | some value => isText value text
  | none => false

-- A variable with a label is for the customer.
def customerFacingVars : Value → List (Text × List (Value × Value))
  | .dict pairs => pairs.filterMap fun pair =>
      match pair with
      | (.str name, .dict var) => if fieldTruthy var "label".toList then some (name, var) else none
      | _ => none
  | _ => []

def choiceText : Value → Text
  | .dict entry =>
      match Value.lookup entry "value".toList, Value.lookup entry "label".toList with
      | some value, some _ => pyText strOf value
      | _, _ => strOf (.dict entry)
  | value => pyText strOf value

-- The values to choose from. A catalog that is accepted has lists here.
def enumChoices (var : List (Value × Value)) : Option (List Text) :=
  match Value.lookup var "enum".toList with
  | some (.list (entry :: entries)) => some ((entry :: entries).map (choiceText strOf))
  | _ =>
      match Value.lookup var "values".toList with
      | some (.list (value :: values)) =>
          if fieldIs var "type".toList "enum".toList then
            some ((value :: values).map (pyText strOf))
          else none
      | _ => none

-- The choices of a group of radio buttons, for a variable that is shown as one.
def radioChoices (var : List (Value × Value)) : Option (List Text) :=
  if ¬ fieldIs var "widget".toList "radio".toList then none
  else if fieldIs var "type".toList "bool".toList then some ["true".toList, "false".toList]
  else if fieldIs var "type".toList "int".toList ∨ fieldIs var "type".toList "float".toList ∨
      fieldIs var "type".toList "string".toList ∨ fieldIs var "type".toList "enum".toList then
    enumChoices strOf var
  else none

structure Radio where
  value : Text
  checked : Bool
  dirty : Bool
deriving DecidableEq, Repr

-- A control of the form in the browser. Of the live value of an input that nobody has
-- touched nothing is sent.
inductive Control
  | radios (original : Text) (options : List Radio)
  | input (original : Text) (writeOnly fromDefault : Bool) (dirty : Option Text)
deriving DecidableEq, Repr

-- `str(None)` is a text like another to a radio button.
def isCurrent (value : Text) (current : Option Text) : Bool :=
  value = current.getD "None".toList

-- The browser reads an attribute back as `attr` has it.
def renderWidget (attr : Text → Text) (var : List (Value × Value)) (rv : Resolved) : Control :=
  let original := attr (rv.value.getD [])
  match radioChoices strOf var with
  | some choices =>
      .radios original (choices.map fun value => ⟨attr value, isCurrent value rv.value, false⟩)
  | none => .input original (fieldTruthy var "write_only".toList) rv.fromDefault none

end Render

section Browser

-- What a user does to one control.
inductive Edit
  | enter (value : Text)
  | choose (index : Nat)

def check (index : Nat) (options : List Radio) : List Radio :=
  match options[index]? with
  | some option =>
      if option.checked then options
      else options.mapIdx fun i other =>
        if i = index then { other with checked := true, dirty := true }
        else { other with checked := false }
  | none => options

def Control.edit : Edit → Control → Control
  | .enter value, .input original writeOnly fromDefault _ =>
      .input original writeOnly fromDefault (some value)
  | .choose index, .radios original options => .radios original (check index options)
  | _, control => control

-- What is sent for a control, if anything. A group of radio buttons sends whatever is
-- checked in it.
def Control.sent : Control → Option Text
  | .radios original options =>
      (options.find? (·.checked)).map fun option => if option.dirty then option.value else original
  | .input original writeOnly fromDefault dirty =>
      match dirty with
      | some value => some value
      | none => if writeOnly || fromDefault then none else some original

structure Card where
  name : Text
  control : Control
deriving DecidableEq, Repr

-- An edit is made to the control of one variable.
def editCards (cards : List Card) (edit : Text × Edit) : List Card :=
  cards.map fun card =>
    if card.name = edit.1 then { card with control := card.control.edit edit.2 } else card

def serialize (cards : List Card) : List (Text × Text) :=
  cards.filterMap fun card => card.control.sent.map fun raw => (card.name, raw)

end Browser

section Page

variable (strOf : Value → Text) (attr : Text → Text)

def renderCards (vars : Value) (values : Text → Resolved) : List Card :=
  (customerFacingVars vars).map fun var =>
    ⟨var.1, renderWidget strOf attr var.2 (values var.1)⟩

-- What a Save posts, after these edits to the page.
def savedForm (vars : Value) (values : Text → Resolved) (edits : List (Text × Edit)) :
    List (Text × Text) :=
  serialize (edits.foldl editCards (renderCards strOf attr vars values))

end Page

end Stra2us.Page
