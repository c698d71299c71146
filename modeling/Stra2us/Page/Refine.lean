import Stra2us.Page.Loaded
import Stra2us.Page.Scope

namespace Stra2us.Page.Touched

open Foundation

section Views

variable {f : Field} {edits : List Edit} {edit : Edit} {el : Element}

def radioOf (el : Element) : Radio :=
  ⟨el.value, el.checked, el.dirty⟩

-- A field as the page of the customer has it, apart from its markup. There are no check boxes
-- on that page.
def Field.view (f : Field) (edits : List Edit) : Page.Control :=
  match f.control with
  | .radios _ _ => .radios f.dataOriginal ((f.block edits).map radioOf)
  | _ =>
      .input f.dataOriginal f.writeOnly f.fromDefault
        (((f.block edits).find? (·.dirty)).map (·.value))

def Field.card (f : Field) (edits : List Edit) : Card :=
  ⟨f.name, f.view edits⟩

def Field.Boxless (f : Field) : Prop :=
  ∀ value checked, f.control ≠ .checkbox value checked

def Form.Event.change {form : Form} (event : form.Event) : Text × Page.Edit :=
  (event.field.name,
    match event.field.control with
    | .radios _ _ => .choose event.place
    | _ => .enter event.text)

-- What is sent for a field is what the page has for it.
theorem entry_eq_sent (h : f.Boxless) : f.entry edits = (f.view edits).sent := by
  unfold Field.view
  cases hcontrol : f.control with
  | plain kind value =>
      have helements : f.elements = [f.element (.plain kind) 0 value false] := by
        rw [Field.elements, hcontrol]
      rw [Field.entry, hcontrol]
      dsimp only
      rw [block_single helements, List.find?_singleton]
      cases (final edits (f.element (.plain kind) 0 value false)).dirty with
      | true => rfl
      | false => rfl
  | radios choices checked =>
      rw [Field.entry, hcontrol]
      dsimp only
      rw [Page.Control.sent, List.find?_map, Option.map_map]
      rfl
  | checkbox value checked => exact absurd hcontrol (h value checked)

theorem final_append (edits : List Edit) (edit : Edit) (el : Element) :
    final (edits ++ [edit]) el = fireOn edit (final edits el) := by
  unfold final edited
  rw [List.foldl_append]
  rfl

theorem block_append (f : Field) (edits : List Edit) (edit : Edit) :
    f.block (edits ++ [edit]) = (f.block edits).map (fireOn edit) := by
  unfold Field.block
  rw [List.map_map]
  exact List.map_congr_left fun el _ => final_append edits edit el

theorem block_other (h : edit.name ≠ f.name) : f.block (edits ++ [edit]) = f.block edits := by
  rw [block_append]
  refine (List.map_congr_left fun el hel => ?_).trans (List.map_id _)
  exact if_pos fun hname => h (hname.symm.trans (mem_block hel).1)

theorem view_other (h : edit.name ≠ f.name) : f.view (edits ++ [edit]) = f.view edits := by
  unfold Field.view
  rw [block_other h]

end Views

section Steps

variable {f : Field} {edits : List Edit} {edit : Edit}

theorem changed_value {kind : PlainKind} {el : Element} (h : el.kind = .plain kind) (text : Text) :
    (changed text el).value = text := by
  unfold changed
  rw [h]

theorem view_plain {kind : PlainKind} {value : Text} (h : f.control = .plain kind value)
    (hname : edit.name = f.name) (hplace : edit.place = 0) :
    f.view (edits ++ [edit]) = (f.view edits).edit (.enter edit.text) := by
  have helements : f.elements = [f.element (.plain kind) 0 value false] := by
    rw [Field.elements, h]
  have hmem : f.element (.plain kind) 0 value false ∈ f.elements := by
    rw [helements]
    exact List.mem_singleton_self _
  have hsame := @final_rendered_same edits f _ _ _ hmem
  have hfired : (fireOn edit (final edits (f.element (.plain kind) 0 value false))).dirty = true ∧
      (fireOn edit (final edits (f.element (.plain kind) 0 value false))).value = edit.text := by
    rw [fireOn, if_neg (not_not.mpr (hsame.name.trans hname.symm)),
      if_pos (hsame.place.trans hplace.symm)]
    refine ⟨?_, changed_value hsame.kind edit.text⟩
    rw [hsame.bound]
    exact Bool.or_true _
  have hblock : f.block (edits ++ [edit]) =
      [fireOn edit (final edits (f.element (.plain kind) 0 value false))] := by
    rw [block_append, block_single helements]
    rfl
  unfold Field.view
  rw [h, hblock, List.find?_cons_of_pos hfired.1, Option.map_some, hfired.2]
  rfl

-- The radio at a place, after any edits.
theorem block_place {choices : List Text} {checked : Option Nat} {i : Nat}
    (h : f.control = .radios choices checked) {el : Element} (hel : (f.block edits)[i]? = some el) :
    el.place = i ∧ el.kind = .radio ∧ el.bound = true ∧ el.name = f.name := by
  unfold Field.block at hel
  rw [List.getElem?_map, Option.map_eq_some_iff] at hel
  obtain ⟨source, hsource, rfl⟩ := hel
  have hmem := List.mem_of_getElem? hsource
  have hrendered := rendered_of_mem hmem
  have hsame := final_same hrendered edits
  have hkind := (radio_of_mem h hmem).2.1
  refine ⟨?_, hsame.kind.trans hkind, hsame.bound, hsame.name.trans hrendered.name⟩
  unfold Field.elements at hsource
  rw [h] at hsource
  dsimp only at hsource
  have hlt : i < choices.length := by
    rw [← @radioElements_length f choices checked 0]
    exact (List.getElem?_eq_some_iff.mp hsource).1
  rw [radioElements_getElem hlt, Nat.zero_add] at hsource
  rw [hsame.place, ← Option.some.inj hsource]
  rfl

-- A click on a radio button that is checked already changes nothing, and nothing is told of it.
theorem view_radios {choices : List Text} {checked : Option Nat}
    (h : f.control = .radios choices checked) (hname : edit.name = f.name)
    (hfresh : ∀ el, (f.block edits)[edit.place]? = some el → el.checked = false)
    (hplace : edit.place < (f.block edits).length) :
    f.view (edits ++ [edit]) = (f.view edits).edit (.choose edit.place) := by
  have hin : ∃ el, (f.block edits)[edit.place]? = some el := ⟨_, List.getElem?_eq_getElem hplace⟩
  obtain ⟨el, hel⟩ := hin
  have hclear := hfresh el hel
  unfold Field.view
  rw [h]
  refine congrArg (Page.Control.radios f.dataOriginal) ?_
  unfold check
  rw [List.getElem?_map, hel, Option.map_some]
  dsimp only [radioOf]
  rw [if_neg (Bool.eq_false_iff.mp hclear), block_append, List.map_map]
  apply List.ext_getElem?
  intro i
  rw [List.getElem?_map, List.getElem?_mapIdx, List.getElem?_map]
  cases hother : (f.block edits)[i]? with
  | none => rfl
  | some other =>
      obtain ⟨hi, hkind, hbound, hothername⟩ := block_place h hother
      refine congrArg some ?_
      dsimp only [Function.comp]
      rw [fireOn, if_neg (not_not.mpr (hothername.trans hname.symm)), hi]
      by_cases heq : i = edit.place
      · rw [if_pos heq, if_pos heq, changed, hkind, hbound, Bool.or_true]
        rfl
      · rw [if_neg heq, if_neg heq, if_pos hkind]
        rfl

end Steps

section Runs

variable {form : Form} {events : List form.Event} {f : Field}

-- Nobody is told of a radio button being chosen that is chosen already.
def Genuine (events : List form.Event) : Prop :=
  ∀ before event after, events = before ++ event :: after →
    ∀ choices checked, event.field.control = .radios choices checked →
      ∀ el, (event.field.block (Form.edits before))[event.place.val]? = some el →
        el.checked = false

theorem Genuine.front {last : form.Event} (h : Genuine (events ++ [last])) : Genuine events :=
  fun before event after heq =>
    h before event (after ++ [last]) (by rw [heq, List.append_assoc, List.cons_append])

theorem edits_append (events : List form.Event) (last : form.Event) :
    Form.edits (events ++ [last]) = Form.edits events ++ [last.edit] :=
  List.map_append

theorem block_length (f : Field) (edits : List Edit) :
    (f.block edits).length = f.elements.length :=
  List.length_map _

theorem view_event {last : form.Event} (hboxless : last.field.Boxless)
    (h : Genuine (events ++ [last])) :
    last.field.view (Form.edits events ++ [last.edit]) =
      (last.field.view (Form.edits events)).edit last.change.2 := by
  cases hcontrol : last.field.control with
  | plain kind value =>
      have hlength : last.field.elements.length = 1 := by
        rw [Field.elements, hcontrol]
        rfl
      have hplace : last.edit.place = 0 := by
        have hlt : last.place.val < last.field.elements.length := last.place.isLt
        change last.place.val = 0
        omega
      rw [view_plain hcontrol rfl hplace, Form.Event.change, hcontrol]
      rfl
  | radios choices checked =>
      rw [view_radios hcontrol rfl (h events last [] rfl choices checked hcontrol)
        (by rw [block_length]; exact last.place.isLt), Form.Event.change, hcontrol]
      rfl
  | checkbox value checked => exact absurd hcontrol (hboxless value checked)

-- By induction on the run: the document shows what the page of the customer has become.
theorem cards_run (hboxless : ∀ f ∈ form.fields, f.Boxless) (h : Genuine events) :
    form.fields.map (·.card (Form.edits events)) =
      (events.map Form.Event.change).foldl editCards (form.fields.map (·.card [])) := by
  induction events using List.reverseRecOn with
  | nil => rfl
  | append_singleton events last ih =>
      rw [List.map_append, List.foldl_append, ← ih h.front, List.map_singleton, List.foldl_cons,
        List.foldl_nil, editCards, List.map_map]
      refine List.map_congr_left fun f hf => ?_
      rw [edits_append]
      dsimp only [Function.comp]
      unfold Field.card
      dsimp only
      by_cases hname : f.name = last.change.1
      · obtain rfl : f = last.field := field_ext hf last.mem hname
        rw [if_pos hname, view_event (hboxless _ hf) h]
      · rw [if_neg hname, view_other fun heq => hname heq.symm]

theorem foldl_record_eq {fields : List Field} {edits : List Edit} {out : List (Text × Text)}
    (hnodup : (fields.map Field.name).Nodup) (hsend : ∀ f ∈ fields, Sendable f.name)
    (hfresh : ∀ f ∈ fields, ∀ entry ∈ out, entry.1 ≠ f.name) :
    fields.foldl (fun out f => record f edits out) out =
      out ++ fields.filterMap fun f => (f.entry edits).map fun value => (f.name, value) := by
  induction fields generalizing out with
  | nil => exact (List.append_nil out).symm
  | cons f fields ih =>
      rw [List.map_cons, List.nodup_cons] at hnodup
      obtain ⟨hname, hproto⟩ := hsend f List.mem_cons_self
      have hrest := fun g hg => hsend g (List.mem_cons_of_mem f hg)
      rw [List.foldl_cons, List.filterMap_cons, record, if_neg hname]
      cases hentry : f.entry edits with
      | none =>
          exact ih hnodup.2 hrest fun g hg => hfresh g (List.mem_cons_of_mem f hg)
      | some value =>
          have hassign : assign out f.name value = out ++ [(f.name, value)] := by
            rw [assign, if_neg hproto, List.filter_eq_self.mpr fun entry hentry =>
              decide_eq_true (hfresh f List.mem_cons_self entry hentry)]
          dsimp only [Option.map_some]
          rw [hassign, ih hnodup.2 hrest, List.append_assoc]
          · rfl
          · intro g hg entry hentry
            rcases List.mem_append.mp hentry with hentry | hentry
            · exact hfresh g (List.mem_cons_of_mem f hg) entry hentry
            · rw [List.mem_singleton.mp hentry]
              exact fun heq => hnodup.1 (List.mem_map.mpr ⟨g, hg, heq.symm⟩)

-- What the script sends is what the page of the customer sends after the same changes.
theorem submitted_refines (hboxless : ∀ f ∈ form.fields, f.Boxless)
    (hsend : ∀ f ∈ form.fields, Sendable f.name) (h : Genuine events) :
    form.submitted events =
      Page.serialize ((events.map Form.Event.change).foldl editCards
        (form.fields.map (·.card []))) := by
  have hfresh : ∀ f ∈ form.fields, ∀ entry ∈ ([] : List (Text × Text)), entry.1 ≠ f.name :=
    fun _ _ _ hentry => by cases hentry
  rw [submitted_eq, foldl_record_eq form.names_nodup hsend hfresh, ← cards_run hboxless h,
    Page.serialize, List.filterMap_map, List.nil_append]
  refine List.filterMap_congr fun f hf => ?_
  rw [entry_eq_sent (hboxless f hf)]
  rfl

end Runs

end Stra2us.Page.Touched

namespace Stra2us.Page.Markup

open Foundation Server
open Client (isVarName mem_varName)
open Touched (Field Form Sendable Genuine)

section Choices

variable {strOf : Value → Text} {var : Var} {current : Option Text}

-- Choices are given as lists, as the gate makes sure of.
structure ListedChoices (var : Var) : Prop where
  enum : ∀ value, Value.lookup var "enum".toList = some value → value.truthy →
    ∃ entries, value = .list entries
  values : ∀ value, Value.lookup var "values".toList = some value → value.truthy →
    ∃ entries, value = .list entries

theorem choiceText_eq (entry : Value) :
    choiceText strOf entry = pyText strOf (choiceOf strOf entry).1 := by
  cases entry with
  | dict entry =>
      dsimp only [choiceText, choiceOf]
      cases Value.lookup entry "value".toList with
      | none => rfl
      | some value =>
          cases Value.lookup entry "label".toList with
          | none => rfl
          | some label => rfl
  | _ => rfl

-- The choices of both models of the page, and that there is one at least.
structure SameChoices (strOf : Value → Text) (var : Var) (choices : Option (List (Value × Text))) :
    Prop where
  ok : enumChoices strOf var = .ok choices
  eq : Page.enumChoices strOf var = choices.map (List.map fun choice => pyText strOf choice.1)
  nonempty : ∀ listed, choices = some listed → listed ≠ []

theorem legacyChoices_eq (hlisted : ListedChoices var) :
    ∃ choices, enumChoices.legacyChoices strOf var = .ok choices ∧
      (match Value.lookup var "values".toList with
        | some (.list (value :: values)) =>
            if fieldIs var "type".toList "enum".toList then
              some ((value :: values).map (pyText strOf))
            else none
        | _ => none) = choices.map (List.map fun choice => pyText strOf choice.1) ∧
      ∀ listed, choices = some listed → listed ≠ [] := by
  unfold enumChoices.legacyChoices
  cases hvalues : Value.lookup var "values".toList with
  | none => exact ⟨none, rfl, rfl, fun _ h => by cases h⟩
  | some values =>
      by_cases htruthy : values.truthy
      · obtain ⟨entries, rfl⟩ := hlisted.values values hvalues htruthy
        cases entries with
        | nil => cases htruthy
        | cons entry entries =>
            by_cases htype : typeIs var "enum"
            · refine ⟨some ((entry :: entries).map fun v => (v, pyText strOf v)), ?_, ?_, ?_⟩
              · exact if_pos ⟨htype, htruthy⟩
              · refine (if_pos htype).trans ?_
                rw [Option.map_some, List.map_map]
                rfl
              · exact fun listed h => by rw [← Option.some.inj h]; exact List.cons_ne_nil _ _
            · exact ⟨none, if_neg fun h => htype h.1, if_neg htype, fun _ h => by cases h⟩
      · refine ⟨none, if_neg fun h => htruthy h.2, ?_, fun _ h => by cases h⟩
        split
        · rename_i value values heq
          rw [Option.some.inj heq] at htruthy
          exact absurd rfl htruthy
        · rfl

theorem sameChoices (hlisted : ListedChoices var) :
    ∃ choices, SameChoices strOf var choices := by
  obtain ⟨legacy, hok, heq, hnonempty⟩ := @legacyChoices_eq strOf var hlisted
  cases henum : Value.lookup var "enum".toList with
  | none =>
      refine ⟨legacy, ?_, ?_, hnonempty⟩
      · unfold enumChoices
        rw [henum]
        exact hok
      · unfold Page.enumChoices
        rw [henum]
        exact heq
  | some enum =>
      by_cases htruthy : enum.truthy
      · obtain ⟨entries, rfl⟩ := hlisted.enum enum henum htruthy
        cases entries with
        | nil => cases htruthy
        | cons entry entries =>
            refine ⟨some ((entry :: entries).map (choiceOf strOf)), ?_, ?_, ?_⟩
            · unfold enumChoices
              rw [henum]
              exact if_pos htruthy
            · unfold Page.enumChoices
              rw [henum, Option.map_some, List.map_map]
              exact congrArg some (List.map_congr_left fun e _ => choiceText_eq e)
            · exact fun listed h => by rw [← Option.some.inj h]; exact List.cons_ne_nil _ _
      · refine ⟨legacy, ?_, ?_, hnonempty⟩
        · unfold enumChoices
          rw [henum]
          exact (if_neg htruthy).trans hok
        · unfold Page.enumChoices
          rw [henum]
          split
          · rename_i value values hlist
            rw [Option.some.inj hlist] at htruthy
            exact absurd rfl htruthy
          · exact heq

-- The choices of a shape that is a group of radio buttons.
def Shape.radioTexts (strOf : Value → Text) : Shape → Option (List Text)
  | .radios first rest => some ((first :: rest).map fun choice => pyText strOf choice.1)
  | _ => none

theorem radioTexts_choice {choices : List (Value × Text)} (h : choices ≠ []) :
    (choiceShape var choices).radioTexts strOf =
      if widgetIs var "radio" then some (choices.map fun choice => pyText strOf choice.1)
      else none := by
  unfold choiceShape
  cases choices with
  | nil => exact absurd rfl h
  | cons first rest =>
      split
      · rfl
      · rfl

-- The types whose variables can list their choices.
def ChoiceType (var : Var) : Prop :=
  typeIs var "int" ∨ typeIs var "float" ∨ typeIs var "string" ∨ typeIs var "enum"

theorem typeIs_unique {a b : String} (ha : typeIs var a) (hb : typeIs var b) :
    a.toList = b.toList := by
  unfold typeIs fieldIs at ha hb
  cases htype : Value.lookup var "type".toList with
  | none =>
      rw [htype] at ha
      cases ha
  | some type =>
      rw [htype] at ha hb
      unfold isText at ha hb
      cases type with
      | str text => exact (of_decide_eq_true ha).symm.trans (of_decide_eq_true hb)
      | _ => cases ha

theorem radioChoices_eq (hbool : ¬ typeIs var "bool") (h : ChoiceType var) :
    radioChoices strOf var =
      if widgetIs var "radio" then Page.enumChoices strOf var else none := by
  unfold radioChoices
  by_cases hwidget : widgetIs var "radio"
  · exact (if_neg (not_not.mpr hwidget)).trans ((if_neg hbool).trans ((if_pos h).trans
      (if_pos hwidget).symm))
  · exact (if_pos hwidget).trans (if_neg hwidget).symm

-- How a shape comes about, from the choices of the variable.
inductive ShapeOf (var : Var) (choices : Option (List (Value × Text))) : Shape → Prop
  | listed (listed : List (Value × Text)) (some : choices = some listed)
      (notBool : ¬ typeIs var "bool") (type : ChoiceType var) :
      ShapeOf var choices (choiceShape var listed)
  | bool (type : typeIs var "bool") :
      ShapeOf var choices (if widgetIs var "radio" then
        .radios (.str "true".toList, "true".toList) [(.str "false".toList, "false".toList)]
      else .bool)
  | free (shape : Shape) (none : choices = none) (notBool : ¬ typeIs var "bool")
      (type : ChoiceType var) (radios : ∀ first rest, shape ≠ .radios first rest) :
      ShapeOf var choices shape
  | other (notBool : ¬ typeIs var "bool") (type : ¬ ChoiceType var) : ShapeOf var choices .text

theorem sliderOrNumber_free {shape : Shape} (h : sliderOrNumber var current = .ok shape) :
    ∀ first rest, shape ≠ .radios first rest := by
  unfold sliderOrNumber at h
  split at h
  · obtain ⟨display, -, h⟩ := exists_of_bind_ok h
    obtain rfl := Except.ok.inj h
    exact fun _ _ heq => by cases heq
  · obtain rfl := Except.ok.inj h
    exact fun _ _ heq => by cases heq

theorem textShape_free : ∀ first rest, textShape var ≠ .radios first rest := by
  unfold textShape
  split
  · exact fun _ _ heq => by cases heq
  · split
    · exact fun _ _ heq => by cases heq
    · exact fun _ _ heq => by cases heq

theorem shapeOf_widget {shape : Shape} (h : widgetShape strOf var current = .ok shape) :
    ∃ choices, enumChoices strOf var = .ok choices ∧ ShapeOf var choices shape := by
  obtain ⟨choices, hchoices, h⟩ := exists_of_bind_ok h
  refine ⟨choices, hchoices, ?_⟩
  by_cases hint : typeIs var "int"
  · have hbool : ¬ typeIs var "bool" := fun hb => absurd (typeIs_unique hint hb) (by decide)
    rw [if_pos hint] at h
    cases choices with
    | some listed =>
        obtain rfl := Except.ok.inj h
        exact .listed listed rfl hbool (.inl hint)
    | none =>
        refine .free shape rfl hbool (.inl hint) ?_
        dsimp only at h
        split at h
        · exact sliderOrNumber_free h
        · obtain rfl := Except.ok.inj h
          exact fun _ _ heq => by cases heq
  rw [if_neg hint] at h
  by_cases hfloat : typeIs var "float"
  · have hbool : ¬ typeIs var "bool" := fun hb => absurd (typeIs_unique hfloat hb) (by decide)
    rw [if_pos hfloat] at h
    cases choices with
    | some listed =>
        obtain rfl := Except.ok.inj h
        exact .listed listed rfl hbool (.inr (.inl hfloat))
    | none =>
        obtain rfl := Except.ok.inj h
        exact .free .number rfl hbool (.inr (.inl hfloat)) fun _ _ heq => by cases heq
  rw [if_neg hfloat] at h
  by_cases hbool : typeIs var "bool"
  · rw [if_pos hbool] at h
    obtain rfl := Except.ok.inj h
    exact .bool hbool
  rw [if_neg hbool] at h
  by_cases htext : typeIs var "string" ∨ typeIs var "enum"
  · rw [if_pos htext] at h
    cases choices with
    | some listed =>
        obtain rfl := Except.ok.inj h
        exact .listed listed rfl hbool (.inr (.inr htext))
    | none =>
        obtain rfl := Except.ok.inj h
        exact .free (textShape var) rfl hbool (.inr (.inr htext)) textShape_free
  · rw [if_neg htext] at h
    obtain rfl := Except.ok.inj h
    refine .other hbool ?_
    rintro (hint' | hfloat' | htext')
    · exact hint hint'
    · exact hfloat hfloat'
    · exact htext htext'

theorem radioTexts_free {shape : Shape} (h : ∀ first rest, shape ≠ .radios first rest) :
    shape.radioTexts strOf = none := by
  cases shape with
  | radios first rest => exact absurd rfl (h first rest)
  | _ => rfl

-- A variable is shown as radio buttons in one model exactly when it is in the other, and with
-- the same choices.
theorem radioTexts_shape (hlisted : ListedChoices var) {shape : Shape}
    (h : widgetShape strOf var current = .ok shape) :
    shape.radioTexts strOf = radioChoices strOf var := by
  obtain ⟨choices, hsame⟩ := @sameChoices strOf var hlisted
  obtain ⟨choices', hchoices, hshape⟩ := shapeOf_widget h
  obtain rfl := Except.ok.inj (hchoices.symm.trans hsame.ok)
  cases hshape with
  | listed listed hsome hbool htype =>
      subst hsome
      rw [radioTexts_choice (hsame.nonempty listed rfl), radioChoices_eq hbool htype, hsame.eq]
      rfl
  | bool htype =>
      unfold radioChoices
      by_cases hwidget : widgetIs var "radio"
      · rw [if_pos hwidget]
        exact ((if_neg (not_not.mpr hwidget)).trans (if_pos htype)).symm
      · rw [if_neg hwidget]
        exact (if_pos hwidget).symm
  | free shape hnone hbool htype hfree =>
      subst hnone
      rw [radioTexts_free hfree, radioChoices_eq hbool htype, hsame.eq, Option.map_none, ite_self]
  | other hbool htype =>
      unfold radioChoices
      by_cases hwidget : widgetIs var "radio"
      · exact ((if_neg (not_not.mpr hwidget)).trans ((if_neg hbool).trans (if_neg htype))).symm
      · exact (if_pos hwidget).symm

-- The choices have different texts, and none of them is null.
structure PlainChoices (strOf : Value → Text) (var : Var) : Prop extends ListedChoices var where
  distinct : ∀ choices, enumChoices strOf var = .ok (some choices) →
    (choices.map fun choice => pyText strOf choice.1).Nodup
  nonNull : ∀ choices, enumChoices strOf var = .ok (some choices) →
    ∀ choice ∈ choices, choice.1 ≠ .none

theorem radios_of_choiceShape {choices listed : List (Value × Text)} {first : Value × Text}
    (h : choiceShape var choices = .radios first listed) : choices = first :: listed := by
  unfold choiceShape at h
  split at h
  · cases choices with
    | nil => cases h
    | cons head tail =>
        obtain ⟨rfl, rfl⟩ := Shape.radios.inj h
        rfl
  · cases h

theorem radios_plain {first : Value × Text} {rest : List (Value × Text)}
    (hplain : PlainChoices strOf var)
    (h : widgetShape strOf var current = .ok (.radios first rest)) :
    ((first :: rest).map fun choice => pyText strOf choice.1).Nodup ∧
      ∀ choice ∈ first :: rest, choice.1 ≠ .none := by
  obtain ⟨choices, hchoices, hshape⟩ := shapeOf_widget h
  generalize hradios : Shape.radios first rest = shape at hshape
  cases hshape with
  | listed listed hsome hbool htype =>
      rw [hsome, radios_of_choiceShape hradios.symm] at hchoices
      exact ⟨hplain.distinct _ hchoices, hplain.nonNull _ hchoices⟩
  | bool htype =>
      split at hradios
      · obtain ⟨rfl, rfl⟩ := Shape.radios.inj hradios
        have hwords : (["true".toList, "false".toList] : List Text).Nodup := by decide
        exact ⟨hwords, by simp⟩
      · cases hradios
  | free shape hnone hbool htype hfree => exact absurd hradios.symm (hfree first rest)
  | other hbool htype => cases hradios

end Choices

section Cards

variable {strOf : Value → Text} {pinned : List (Text × Text) → Text}
variable {name : Text} {var : Var} {current : Option Text} {fromDefault : Bool}

theorem choiceValue_eq {choice : Value × Text} (h : choice.1 ≠ .none) :
    choiceValue strOf choice = Html.shown (pyText strOf choice.1) := by
  unfold choiceValue plain
  split
  · rename_i heq
    exact absurd heq h
  · rfl

theorem radioOf_final {f : Field} {el : Touched.Element} (h : Touched.Rendered f el) :
    Touched.radioOf (Touched.final [] el) = ⟨(Touched.initElement el).value, el.checked, false⟩ := by
  obtain ⟨-, hdirty, hchecked, -⟩ := Touched.initElement_same h
  change Touched.radioOf (Touched.initElement el) = _
  rw [Touched.radioOf, hdirty, hchecked]

-- By induction on the choices, whose texts differ: at most one of them is current.
theorem radioElements_view (f : Field) {choices : List (Value × Text)} {place : Nat}
    (hdistinct : (choices.map fun choice => pyText strOf choice.1).Nodup)
    (hnull : ∀ choice ∈ choices, choice.1 ≠ .none) :
    ((f.radioElements (lastCurrent strOf current place choices) place
        (choices.map (choiceValue strOf))).map fun el => Touched.radioOf (Touched.final [] el)) =
      (choices.map fun choice => pyText strOf choice.1).map fun value =>
        ⟨Html.shown value, isCurrent value current, false⟩ := by
  induction choices generalizing place with
  | nil => rfl
  | cons choice choices ih =>
      rw [List.map_cons, List.nodup_cons] at hdistinct
      rw [List.forall_mem_cons] at hnull
      have hchecked : decide (lastCurrent strOf current place (choice :: choices) = some place) =
          isCurrent (pyText strOf choice.1) current := by
        rw [Bool.eq_iff_iff, decide_eq_true_eq, lastCurrent_head]
        refine and_iff_left_of_imp fun hcurrent => List.any_eq_false.mpr fun other hother => ?_
        intro hother'
        have hsame : pyText strOf choice.1 = pyText strOf other.1 :=
          (of_decide_eq_true hcurrent).trans (of_decide_eq_true hother').symm
        exact hdistinct.1 (List.mem_map.mpr ⟨other, hother, hsame.symm⟩)
      have hcongr := @radioElements_congr f _ _ (place + 1) (choices.map (choiceValue strOf))
        fun i hi => @lastCurrent_tail strOf current place choice choices i hi
      rw [List.map_cons, Touched.Field.radioElements, List.map_cons, hcongr,
        ih hdistinct.2 hnull.2, hchecked, choiceValue_eq hnull.1]
      rfl

-- The field of a card is the control that the plain page has for the variable.
theorem fieldOf_card (hplain : PlainChoices strOf var) {shape : Shape}
    (h : widgetShape strOf var current = .ok shape) (hname : Html.shown name = name)
    (encrypted : Bool) :
    (fieldOf strOf pinned name var current fromDefault shape).card [] =
      ⟨name, Page.renderWidget strOf Html.shown var ⟨current, encrypted, fromDefault⟩⟩ := by
  have hradio := radioTexts_shape hplain.toListedChoices h
  unfold Touched.Field.card Page.renderWidget
  rw [← hradio]
  refine congrArg₂ Card.mk hname ?_
  cases shape with
  | radios first rest =>
      obtain ⟨hdistinct, hnull⟩ := radios_plain hplain h
      have hview := @radioElements_view strOf current (fieldOf strOf pinned name var current
        fromDefault (.radios first rest)) (first :: rest) 0 hdistinct hnull
      unfold Touched.Field.view Touched.Field.block Touched.Field.elements
      dsimp only [fieldOf, fieldControl, Shape.radioTexts] at hview ⊢
      rw [List.map_map]
      exact congrArg _ hview
  | select choices => rfl
  | number => rfl
  | slider lo hi display => rfl
  | area => rfl
  | secret => rfl
  | text => rfl
  | bool => rfl

theorem fieldOf_boxless (shape : Shape) :
    (fieldOf strOf pinned name var current fromDefault shape).Boxless := by
  intro value checked h
  cases shape with
  | _ => cases h

end Cards

section Page

variable {strOf : Value → Text} {fullmatch : Value → Text → Except Exn Bool}
variable {renderMarkdownBlock : Text → Text → Text → Value → Except Exn Text}
variable {publishHash : Var → Except Exn Text} {pinned : List (Text × Text) → Text}
variable {app device : Text} {catalog : Var} {values : Text → Option Resolved}

def resolvedOf (values : Text → Option Resolved) (name : Text) : Resolved :=
  (values name).getD ⟨none, false, false⟩

theorem shown_varName {name : Text} (h : isVarName name) : Html.shown name = name := by
  refine shown_plain fun c hc => ⟨?_, ?_⟩
  · rintro rfl
    exact absurd (mem_varName h hc) (by decide)
  · rintro rfl
    exact absurd (mem_varName h hc) (by decide)

theorem sendable_varName {name : Text} (h : isVarName name) : Sendable name := by
  constructor
  · rintro rfl
    cases h
  · rintro rfl
    exact absurd h (by decide)

-- What the gate makes sure of about the variables that the page shows.
structure PlainVars (strOf : Value → Text) (vars : List (Text × Var)) : Prop where
  distinct : (vars.map Prod.fst).Nodup
  named : ∀ entry ∈ vars, isVarName entry.1
  choices : ∀ entry ∈ vars, PlainChoices strOf entry.2

theorem pageFields_cards {vars : List (Text × Var)} (hnames : ∀ entry ∈ vars, isVarName entry.1)
    (hchoices : ∀ entry ∈ vars, PlainChoices strOf entry.2) {fields : List Field}
    (h : vars.mapM (pageField strOf pinned values) = .ok fields) :
    fields.map (·.card []) = vars.map (fun var =>
        ⟨var.1, Page.renderWidget strOf Html.shown var.2 (resolvedOf values var.1)⟩) ∧
      (∀ f ∈ fields, f.Boxless ∧ Sendable f.name) := by
  induction vars generalizing fields with
  | nil =>
      obtain rfl := Except.ok.inj h
      exact ⟨rfl, fun f hf => by cases hf⟩
  | cons entry vars ih =>
      rw [List.mapM_cons] at h
      obtain ⟨field, hfield, h⟩ := exists_of_bind_ok h
      obtain ⟨rest, hrest, h⟩ := exists_of_bind_ok h
      obtain rfl := Except.ok.inj h
      rw [List.forall_mem_cons] at hnames hchoices
      obtain ⟨hcards, hfields⟩ := ih hnames.2 hchoices.2 hrest
      obtain ⟨shape, hshape, hfield⟩ := exists_of_bind_ok hfield
      obtain rfl := Except.ok.inj hfield
      have hshown := shown_varName hnames.1
      have hcard := @fieldOf_card strOf pinned entry.1 entry.2 _
        ((values entry.1).any Resolved.fromDefault) hchoices.1 shape hshape hshown
        (resolvedOf values entry.1).encrypted
      have hresolved : (⟨(values entry.1).bind Resolved.value,
          (resolvedOf values entry.1).encrypted, (values entry.1).any Resolved.fromDefault⟩ :
            Resolved) = resolvedOf values entry.1 := by
        unfold resolvedOf
        cases values entry.1 with
        | none => rfl
        | some resolved => rfl
      rw [hresolved] at hcard
      refine ⟨?_, List.forall_mem_cons.mpr ⟨⟨fieldOf_boxless shape, ?_⟩, hfields⟩⟩
      · rw [List.map_cons, List.map_cons, hcards, hcard]
      · change Sendable (Html.shown entry.1)
        rw [hshown]
        exact sendable_varName hnames.1

theorem customerFacing_ok {vars : List (Text × Var)} (h : customerFacing catalog = .ok vars) :
    vars = customerFacingVars (catalogVars (some catalog)) := by
  unfold customerFacing at h
  cases hcatalog : catalogVars (some catalog) with
  | dict pairs =>
      rw [hcatalog] at h
      exact (Except.ok.inj h).symm
  | _ =>
      rw [hcatalog] at h
      cases h

-- Refinement: the page that is rendered, read by a browser and managed by its script sends what
-- the plain page sends, whatever the user does to it.
theorem renderPage_refines (hmarkdown : Sanitizing renderMarkdownBlock)
    (hinert : Inert renderMarkdownBlock)
    (hvars : PlainVars strOf (customerFacingVars (catalogVars (some catalog)))) {html : Text}
    (h : renderPage strOf fullmatch renderMarkdownBlock publishHash app device catalog values =
      .ok html) :
    ∃ form : Touched.Form,
      (Html.tokenize html).map (documentElements pinned) = some form.elements ∧
        ∀ events : List form.Event, Genuine events →
          form.submitted events =
            savedForm strOf Html.shown (catalogVars (some catalog)) (resolvedOf values)
              (events.map Touched.Form.Event.change) := by
  have hnames : NamesApart catalog := by
    intro vars hok
    have hshown : vars.map (fun entry => Html.shown entry.1) = vars.map Prod.fst :=
      List.map_congr_left fun entry hentry =>
        shown_varName (hvars.named entry (customerFacing_ok hok ▸ hentry))
    rw [hshown, customerFacing_ok hok]
    exact hvars.distinct
  obtain ⟨form, hfields, helements⟩ := @renderPage_loads strOf fullmatch renderMarkdownBlock
    publishHash pinned app device catalog values hmarkdown hinert hnames html h
  obtain ⟨vars, hok, hfields⟩ := exists_of_bind_ok hfields
  rw [customerFacing_ok hok] at hfields
  obtain ⟨hcards, hsend⟩ := pageFields_cards hvars.named hvars.choices hfields
  refine ⟨form, helements, fun events hgenuine => ?_⟩
  rw [Touched.submitted_refines (fun f hf => (hsend f hf).1) (fun f hf => (hsend f hf).2) hgenuine,
    hcards]
  rfl

end Page

section Small

theorem plainVars_small :
    PlainVars (fun _ => []) (customerFacingVars (catalogVars (some smallCatalog))) where
  distinct := List.nodup_singleton _
  named := by
    intro entry hentry
    obtain rfl := List.mem_singleton.mp hentry
    decide
  choices := by
    intro entry hentry
    obtain rfl := List.mem_singleton.mp hentry
    exact {
      enum := fun _ h => by cases h
      values := fun _ h => by cases h
      distinct := fun _ h => by cases h
      nonNull := fun _ h => by cases h }

theorem renderSmall_refines :
    ∃ html, ∃ form : Touched.Form, renderSmall = .ok html ∧
      (Html.tokenize html).map (documentElements fun _ => []) = some form.elements ∧
        ∀ events : List form.Event, Genuine events →
          form.submitted events =
            savedForm (fun _ => []) Html.shown (catalogVars (some smallCatalog))
              (resolvedOf smallValues) (events.map Touched.Form.Event.change) := by
  obtain ⟨html, h⟩ := renderSmall_ok
  obtain ⟨form, helements, hrefines⟩ :=
    renderPage_refines smallBlock_sanitizing smallBlock_inert plainVars_small h
  exact ⟨html, form, h, helements, hrefines⟩

end Small

end Stra2us.Page.Markup
