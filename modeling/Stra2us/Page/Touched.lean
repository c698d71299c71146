import Mathlib.Data.List.Basic
import Stra2us.Foundation.Text

namespace Stra2us.Page.Touched

open Foundation

section Elements

-- The inputs that are read through their value.
inductive PlainKind
  | text
  | textarea
  | password
  | number
  | range
  | select
deriving DecidableEq

inductive ElementKind
  | plain (kind : PlainKind)
  | radio
  | checkbox
  | command
deriving DecidableEq

-- A control in the document. Its place is the one among the controls of its name.
structure Element where
  kind : ElementKind
  name : Text
  place : Nat
  value : Text
  checked : Bool
  dataOriginal : Option Text
  writeOnly : Bool
  fromDefault : Bool
  dirty : Bool
  bound : Bool
deriving DecidableEq

-- Submit, button, image and reset carry no value.
def isValueInput (el : Element) : Bool :=
  el.kind ≠ .command

def ensureOriginal (el : Element) : Element :=
  { el with dataOriginal := some (el.dataOriginal.getD el.value) }

def bindField (el : Element) : Element :=
  if el.bound then el else { ensureOriginal el with dirty := false, bound := true }

def initElement (el : Element) : Element :=
  if isValueInput el then bindField el else el

def initForm (form : List Element) : List Element :=
  form.map initElement

end Elements

section Edits

-- What the user does to one control: text that is put in, a radio that is chosen, or a box
-- that is toggled.
structure Edit where
  name : Text
  place : Nat
  text : Text
deriving DecidableEq

def changed (text : Text) (el : Element) : Element :=
  match el.kind with
  | .radio => { el with checked := true }
  | .checkbox => { el with checked := !el.checked }
  | _ => { el with value := text }

-- The other radios of the name lose their mark. Both listeners mark the control as dirty.
def fireOn (edit : Edit) (el : Element) : Element :=
  if el.name ≠ edit.name then el
  else if el.place = edit.place then { changed edit.text el with dirty := el.dirty || el.bound }
  else if el.kind = .radio then { el with checked := false }
  else el

def fire (form : List Element) (edit : Edit) : List Element :=
  form.map (fireOn edit)

end Edits

section Serialize

-- Assigning a string to `__proto__` of a plain object does nothing.
def assign (out : List (Text × Text)) (name value : Text) : List (Text × Text) :=
  if name = "__proto__".toList then out
  else out.filter (fun entry => entry.1 ≠ name) ++ [(name, value)]

def checkedRadio (form : List Element) (name : Text) : Option Element :=
  form.find? fun el => el.kind = .radio && el.name = name && el.checked

def original (el : Element) : Text :=
  el.dataOriginal.getD []

def serializeFrom (form : List Element) :
    List Element → List Text → List (Text × Text) → List (Text × Text)
  | [], _, out => out
  | el :: rest, seen, out =>
      if !isValueInput el || el.name = [] || el.name ∈ seen then serializeFrom form rest seen out
      else
        match el.kind with
        | .radio =>
            match checkedRadio form el.name with
            | none => serializeFrom form rest seen out
            | some checked =>
                serializeFrom form rest (el.name :: seen)
                  (assign out el.name (if checked.dirty then checked.value else original checked))
        | .checkbox =>
            serializeFrom form rest (el.name :: seen)
              (assign out el.name
                (if el.dirty then (if el.checked then "true".toList else "false".toList)
                else original el))
        | _ =>
            if (el.writeOnly || el.fromDefault) && !el.dirty then
              serializeFrom form rest (el.name :: seen) out
            else
              serializeFrom form rest (el.name :: seen)
                (assign out el.name (if el.dirty then el.value else original el))

def serialize (form : List Element) : List (Text × Text) :=
  serializeFrom form form [] []

end Serialize

section Fields

inductive Control
  | plain (kind : PlainKind) (value : Text)
  | radios (choices : List Text) (checked : Option Nat)
  | checkbox (value : Text) (checked : Bool)

-- A variable's card as the page renders it.
structure Field where
  name : Text
  dataOriginal : Text
  writeOnly : Bool
  fromDefault : Bool
  control : Control

namespace Field

variable (f : Field)

def element (kind : ElementKind) (place : Nat) (value : Text) (checked : Bool) : Element where
  kind := kind
  name := f.name
  place := place
  value := value
  checked := checked
  dataOriginal := some f.dataOriginal
  writeOnly := f.writeOnly
  fromDefault := f.fromDefault && place = 0
  dirty := false
  bound := false

def radioElements (checked : Option Nat) : Nat → List Text → List Element
  | _, [] => []
  | place, choice :: rest =>
      f.element .radio place choice (checked = some place) ::
        radioElements checked (place + 1) rest

-- The mark for a catalog default is spliced into the first control only.
def elements : List Element :=
  match f.control with
  | .plain kind value => [f.element (.plain kind) 0 value false]
  | .radios choices checked => f.radioElements checked 0 choices
  | .checkbox value checked => [f.element .checkbox 0 value checked]

def isMarked : Bool := f.writeOnly || f.fromDefault

end Field

-- A form names each of its variables once.
structure Form where
  fields : List Field
  names_nodup : (fields.map Field.name).Nodup

-- An edit of a control that the form has.
structure Form.Event (form : Form) where
  field : Field
  mem : field ∈ form.fields
  place : Fin field.elements.length
  text : Text

def Form.Event.edit {form : Form} (event : form.Event) : Edit :=
  ⟨event.field.name, event.place, event.text⟩

def Form.elements (form : Form) : List Element :=
  form.fields.flatMap Field.elements

-- The document after `init` and the events.
def Form.after (form : Form) (events : List form.Event) : List Element :=
  (events.map Form.Event.edit).foldl fire (initForm form.elements)

def Form.submitted (form : Form) (events : List form.Event) : List (Text × Text) :=
  serialize (form.after events)

end Fields

section Law

def Element.live (el : Element) : Option Text :=
  match el.kind with
  | .radio => if el.checked then some el.value else none
  | .checkbox => some (if el.checked then "true".toList else "false".toList)
  | _ => some el.value

-- What the first control of a name that shows anything shows.
def liveValue (document : List Element) (name : Text) : Option Text :=
  (document.find? fun el => el.name = name && el.live.isSome).bind Element.live

def Field.Edited (f : Field) {form : Form} (events : List form.Event) : Prop :=
  ∃ event ∈ events, event.field = f

-- One law for all the widgets.
structure Law (form : Form) (events : List form.Event) : Prop where
  once : ((form.submitted events).map Prod.fst).Nodup
  edited : ∀ f ∈ form.fields, f.Edited events →
    ∃ value, liveValue (form.after events) f.name = some value ∧
      (f.name, value) ∈ form.submitted events
  marked : ∀ f ∈ form.fields, ¬ f.Edited events → f.isMarked = true →
    ∀ value, (f.name, value) ∉ form.submitted events
  clean : ∀ f ∈ form.fields, ¬ f.Edited events → f.isMarked = false →
    ∀ value, (f.name, value) ∈ form.submitted events → value = f.dataOriginal

end Law

end Stra2us.Page.Touched
