import Mathlib.Data.List.Find
import Stra2us.Page.Touched

namespace Stra2us.Page.Touched

open Foundation

section Final

variable {el : Element} {edit : Edit} {edits : List Edit}

-- One control after the edits of the whole form.
def edited (edits : List Edit) (el : Element) : Element :=
  edits.foldl (fun el edit => fireOn edit el) el

def final (edits : List Edit) (el : Element) : Element :=
  edited edits (initElement el)

theorem foldl_fire (edits : List Edit) (form : List Element) :
    edits.foldl fire form = form.map (edited edits) := by
  induction edits generalizing form with
  | nil => exact (List.map_id form).symm
  | cons edit edits ih =>
      rw [List.foldl_cons, ih, fire, List.map_map]
      rfl

-- What an edit leaves as it is.
structure SameControl (a b : Element) : Prop where
  kind : a.kind = b.kind
  name : a.name = b.name
  place : a.place = b.place
  dataOriginal : a.dataOriginal = b.dataOriginal
  writeOnly : a.writeOnly = b.writeOnly
  fromDefault : a.fromDefault = b.fromDefault
  bound : a.bound = b.bound

theorem SameControl.rfl (a : Element) : SameControl a a :=
  ⟨Eq.refl _, Eq.refl _, Eq.refl _, Eq.refl _, Eq.refl _, Eq.refl _, Eq.refl _⟩

theorem SameControl.trans {a b c : Element} (hab : SameControl a b) (hbc : SameControl b c) :
    SameControl a c :=
  ⟨hab.kind.trans hbc.kind, hab.name.trans hbc.name, hab.place.trans hbc.place,
    hab.dataOriginal.trans hbc.dataOriginal, hab.writeOnly.trans hbc.writeOnly,
    hab.fromDefault.trans hbc.fromDefault, hab.bound.trans hbc.bound⟩

theorem changed_same (text : Text) (el : Element) : SameControl (changed text el) el := by
  unfold changed
  split <;> exact ⟨rfl, rfl, rfl, rfl, rfl, rfl, rfl⟩

theorem fireOn_same (edit : Edit) (el : Element) : SameControl (fireOn edit el) el := by
  unfold fireOn
  split
  · exact SameControl.rfl el
  · split
    · have h := changed_same edit.text el
      exact ⟨h.kind, h.name, h.place, h.dataOriginal, h.writeOnly, h.fromDefault, h.bound⟩
    · split
      · exact ⟨rfl, rfl, rfl, rfl, rfl, rfl, rfl⟩
      · exact SameControl.rfl el

theorem edited_same (edits : List Edit) (el : Element) : SameControl (edited edits el) el := by
  induction edits generalizing el with
  | nil => exact SameControl.rfl el
  | cons edit edits ih => exact (ih (fireOn edit el)).trans (fireOn_same edit el)

theorem changed_dirty (text : Text) (el : Element) : (changed text el).dirty = el.dirty := by
  unfold changed
  split <;> rfl

-- A bound control is dirty once an edit was aimed at it.
theorem edited_dirty (hbound : el.bound = true) :
    (edited edits el).dirty = true ↔
      el.dirty = true ∨ ∃ edit ∈ edits, edit.name = el.name ∧ edit.place = el.place := by
  induction edits generalizing el with
  | nil => simp [edited]
  | cons edit edits ih =>
      have hsame := fireOn_same edit el
      change (edited edits (fireOn edit el)).dirty = true ↔ _
      rw [ih (hsame.bound.trans hbound), hsame.name, hsame.place]
      have hfired : (fireOn edit el).dirty = true ↔
          el.dirty = true ∨ (edit.name = el.name ∧ edit.place = el.place) := by
        unfold fireOn
        split
        · rename_i hname
          exact (or_iff_left fun h => hname h.1.symm).symm
        · rename_i hname
          rw [not_not] at hname
          split
          · rename_i hplace
            rw [hbound, Bool.or_true]
            exact iff_of_true rfl (.inr ⟨hname.symm, hplace.symm⟩)
          · rename_i hplace
            have hdirty : (if el.kind = .radio then { el with checked := false }
                else el).dirty = el.dirty := by
              split <;> rfl
            rw [hdirty]
            exact (or_iff_left fun h => hplace h.2.symm).symm
      rw [hfired]
      simp only [List.mem_cons, exists_eq_or_imp, or_assoc]

-- Where the last edit of a name was aimed at.
def lastPlace (name : Text) : List Edit → Option Nat
  | [] => none
  | edit :: edits =>
      match lastPlace name edits with
      | some place => some place
      | none => if edit.name = name then some edit.place else none

theorem lastPlace_mem {name : Text} {place : Nat} (h : lastPlace name edits = some place) :
    ∃ edit ∈ edits, edit.name = name ∧ edit.place = place := by
  induction edits with
  | nil => cases h
  | cons edit edits ih =>
      rw [lastPlace] at h
      cases hrest : lastPlace name edits with
      | some other =>
          rw [hrest] at h
          obtain rfl := Option.some.inj h
          obtain ⟨found, hmem, hfound⟩ := ih hrest
          exact ⟨found, List.mem_cons_of_mem edit hmem, hfound⟩
      | none =>
          rw [hrest] at h
          dsimp only at h
          split at h
          · rename_i hname
            exact ⟨edit, List.mem_cons_self, hname, Option.some.inj h⟩
          · cases h

theorem lastPlace_none {name : Text} :
    lastPlace name edits = none ↔ ∀ edit ∈ edits, edit.name ≠ name := by
  induction edits with
  | nil => simp [lastPlace]
  | cons edit edits ih =>
      rw [lastPlace]
      cases hrest : lastPlace name edits with
      | some place =>
          refine iff_of_false (fun h => by cases h) fun h => ?_
          rw [ih.mpr fun other hother => h other (List.mem_cons_of_mem edit hother)] at hrest
          cases hrest
      | none =>
          have hnone := ih.mp hrest
          dsimp only
          rw [List.forall_mem_cons]
          split
          · rename_i hname
            exact iff_of_false (fun h => by cases h) fun h => h.1 hname
          · rename_i hname
            exact iff_of_true rfl ⟨hname, hnone⟩

-- By induction on the edits: the last one decides which radio is checked.
theorem edited_checked (hradio : el.kind = .radio) :
    (edited edits el).checked =
      match lastPlace el.name edits with
      | some place => decide (place = el.place)
      | none => el.checked := by
  induction edits generalizing el with
  | nil => rfl
  | cons edit edits ih =>
      have hsame := fireOn_same edit el
      change (edited edits (fireOn edit el)).checked = _
      rw [ih (hsame.kind.trans hradio), hsame.name, hsame.place, lastPlace]
      cases lastPlace el.name edits with
      | some place => rfl
      | none =>
          dsimp only
          unfold fireOn
          by_cases hname : edit.name = el.name
          · rw [if_neg (not_not.mpr hname.symm), if_pos hname]
            by_cases hplace : edit.place = el.place
            · rw [if_pos hplace.symm, changed, hradio]
              exact (decide_eq_true hplace).symm
            · rw [if_neg fun h => hplace h.symm, if_pos hradio]
              exact (decide_eq_false hplace).symm
          · rw [if_pos fun h => hname h.symm, if_neg hname]

end Final

section Blocks

variable {f : Field} {edits : List Edit} {el : Element}

-- The controls of one field after the edits of the form.
def Field.block (f : Field) (edits : List Edit) : List Element :=
  f.elements.map (final edits)

-- What a control of the field carries before anything happens.
structure Rendered (f : Field) (el : Element) : Prop where
  name : el.name = f.name
  dataOriginal : el.dataOriginal = some f.dataOriginal
  dirty : el.dirty = false
  bound : el.bound = false
  value : isValueInput el = true

theorem mem_radioElements {checked : Option Nat} {place : Nat} {choices : List Text}
    (h : el ∈ f.radioElements checked place choices) :
    Rendered f el ∧ el.kind = .radio ∧ el.checked = decide (checked = some el.place) := by
  induction choices generalizing place with
  | nil => cases h
  | cons choice choices ih =>
      rcases List.mem_cons.mp h with rfl | h
      · exact ⟨⟨rfl, rfl, rfl, rfl, rfl⟩, rfl, rfl⟩
      · exact ih h

theorem rendered_of_mem (h : el ∈ f.elements) : Rendered f el := by
  unfold Field.elements at h
  split at h
  · obtain rfl := List.mem_singleton.mp h
    exact ⟨rfl, rfl, rfl, rfl, rfl⟩
  · exact (mem_radioElements h).1
  · obtain rfl := List.mem_singleton.mp h
    exact ⟨rfl, rfl, rfl, rfl, rfl⟩

theorem initElement_same (h : Rendered f el) :
    SameControl (initElement el) { el with bound := true } ∧ (initElement el).dirty = false ∧
      (initElement el).checked = el.checked ∧ (initElement el).bound = true := by
  have hinit : initElement el = { ensureOriginal el with dirty := false, bound := true } := by
    unfold initElement bindField
    rw [if_pos h.value, h.bound, if_neg Bool.false_ne_true]
  rw [hinit]
  refine ⟨⟨rfl, rfl, rfl, ?_, rfl, rfl, rfl⟩, rfl, rfl, rfl⟩
  change some (el.dataOriginal.getD el.value) = el.dataOriginal
  rw [h.dataOriginal]
  rfl

theorem final_same (h : Rendered f el) (edits : List Edit) :
    SameControl (final edits el) { el with bound := true } :=
  (edited_same edits (initElement el)).trans (initElement_same h).1

theorem final_dirty (h : Rendered f el) :
    (final edits el).dirty = true ↔ ∃ edit ∈ edits, edit.name = f.name ∧ edit.place = el.place := by
  obtain ⟨hsame, hclean, -, hbound⟩ := initElement_same h
  unfold final
  rw [edited_dirty hbound, hclean, hsame.name, hsame.place, ← h.name]
  exact or_iff_right Bool.false_ne_true

theorem final_checked (h : Rendered f el) (hradio : el.kind = .radio) :
    (final edits el).checked =
      match lastPlace f.name edits with
      | some place => decide (place = el.place)
      | none => el.checked := by
  obtain ⟨hsame, -, hchecked, -⟩ := initElement_same h
  unfold final
  rw [edited_checked (hsame.kind.trans hradio), hsame.name, hsame.place, hchecked, ← h.name]

theorem original_final (h : Rendered f el) : original (final edits el) = f.dataOriginal := by
  unfold original
  rw [(final_same h edits).dataOriginal]
  change el.dataOriginal.getD [] = f.dataOriginal
  rw [h.dataOriginal]
  rfl

theorem mem_block (h : el ∈ f.block edits) : el.name = f.name ∧ isValueInput el = true := by
  obtain ⟨source, hmem, rfl⟩ := List.mem_map.mp h
  have hrendered := rendered_of_mem hmem
  have hsame := final_same hrendered edits
  refine ⟨hsame.name.trans hrendered.name, ?_⟩
  unfold isValueInput
  rw [hsame.kind]
  exact hrendered.value

end Blocks

section Entries

variable (f : Field) (edits : List Edit)

-- What a submit sends for the field, if anything.
def Field.entry : Option Text :=
  match f.control with
  | .plain kind value =>
      let el := final edits (f.element (.plain kind) 0 value false)
      if el.dirty then some el.value else if f.isMarked then none else some f.dataOriginal
  | .radios _ _ =>
      ((f.block edits).find? (·.checked)).map fun el =>
        if el.dirty then el.value else f.dataOriginal
  | .checkbox value checked =>
      let el := final edits (f.element .checkbox 0 value checked)
      some (if el.dirty then (if el.checked then "true".toList else "false".toList)
        else f.dataOriginal)

-- What the field holds at the time.
def Field.live : Option Text :=
  match f.control with
  | .plain kind value => some (final edits (f.element (.plain kind) 0 value false)).value
  | .radios _ _ => ((f.block edits).find? (·.checked)).map (·.value)
  | .checkbox value checked =>
      let el := final edits (f.element .checkbox 0 value checked)
      some (if el.checked then "true".toList else "false".toList)

def record (out : List (Text × Text)) : List (Text × Text) :=
  if f.name = [] then out
  else
    match f.entry edits with
    | some value => assign out f.name value
    | none => out

end Entries

section Walk

variable {form : List Element} {edits : List Edit} {f : Field}

theorem serializeFrom_seen {els rest : List Element} {seen : List Text}
    {out : List (Text × Text)} (h : ∀ el ∈ els, el.name = [] ∨ el.name ∈ seen) :
    serializeFrom form (els ++ rest) seen out = serializeFrom form rest seen out := by
  induction els with
  | nil => rfl
  | cons el els ih =>
      have hskip : (!isValueInput el || el.name = [] || el.name ∈ seen) = true := by
        rcases h el List.mem_cons_self with hname | hname
        · simp [hname]
        · simp [hname]
      rw [List.cons_append, serializeFrom, if_pos hskip]
      exact ih fun other hother => h other (List.mem_cons_of_mem el hother)

theorem serializeFrom_unchecked {els rest : List Element} {seen : List Text}
    {out : List (Text × Text)}
    (h : ∀ el ∈ els, el.kind = .radio ∧ checkedRadio form el.name = none) :
    serializeFrom form (els ++ rest) seen out = serializeFrom form rest seen out := by
  induction els with
  | nil => rfl
  | cons el els ih =>
      obtain ⟨hkind, hnone⟩ := h el List.mem_cons_self
      have htail := ih fun other hother => h other (List.mem_cons_of_mem el hother)
      rw [List.cons_append, serializeFrom]
      split
      · exact htail
      · simp only [hkind, hnone]
        exact htail

theorem block_single {kind : ElementKind} {value : Text} {checked : Bool}
    (h : f.elements = [f.element kind 0 value checked]) :
    f.block edits = [final edits (f.element kind 0 value checked)] := by
  unfold Field.block
  rw [h]
  rfl

theorem final_rendered_same {kind : ElementKind} {value : Text} {checked : Bool}
    (h : f.element kind 0 value checked ∈ f.elements) :
    SameControl (final edits (f.element kind 0 value checked))
      { f.element kind 0 value checked with bound := true } :=
  final_same (rendered_of_mem h) edits

-- The radio that is checked among the controls of a field.
def Field.chosen (f : Field) (edits : List Edit) : Option Element :=
  (f.block edits).find? fun el => el.kind = .radio && el.checked

theorem radio_of_mem_block {choices : List Text} {checked : Option Nat} {el : Element}
    (h : f.control = .radios choices checked) (hmem : el ∈ f.block edits) : el.kind = .radio := by
  obtain ⟨source, hsource, rfl⟩ := List.mem_map.mp hmem
  have hrendered := rendered_of_mem hsource
  rw [(final_same hrendered edits).kind]
  unfold Field.elements at hsource
  rw [h] at hsource
  exact (mem_radioElements hsource).2.1

theorem chosen_radios {choices : List Text} {checked : Option Nat}
    (h : f.control = .radios choices checked) :
    f.chosen edits = (f.block edits).find? (·.checked) := by
  refine List.find?_congr fun el hel => ?_
  rw [radio_of_mem_block h hel]
  rfl

-- The walk over the controls of one field that it has not met adds what the field sends.
theorem serializeFrom_block {rest : List Element} {seen : List Text} {out : List (Text × Text)}
    (hfresh : f.name ∉ seen) (hchosen : checkedRadio form f.name = f.chosen edits) :
    ∃ seen', (∀ name ∈ seen', name = f.name ∨ name ∈ seen) ∧
      serializeFrom form (f.block edits ++ rest) seen out =
        serializeFrom form rest seen' (record f edits out) := by
  by_cases hname : f.name = []
  · refine ⟨seen, fun name h => .inr h, ?_⟩
    rw [record, if_pos hname]
    exact serializeFrom_seen fun el hel => .inl ((mem_block hel).1.trans hname)
  · have hnew : ∀ name ∈ f.name :: seen, name = f.name ∨ name ∈ seen :=
      fun name h => List.mem_cons.mp h
    rw [record, if_neg hname]
    cases hcontrol : f.control with
    | plain kind value =>
        have helements : f.elements = [f.element (.plain kind) 0 value false] := by
          rw [Field.elements, hcontrol]
        have hmem : f.element (.plain kind) 0 value false ∈ f.elements := by
          rw [helements]
          exact List.mem_singleton_self _
        have hsame := @final_rendered_same edits f _ _ _ hmem
        have horiginal := @original_final f edits _ (rendered_of_mem hmem)
        refine ⟨f.name :: seen, hnew, ?_⟩
        rw [block_single helements, Field.entry, hcontrol]
        dsimp only
        generalize final edits (f.element (.plain kind) 0 value false) = el at *
        obtain ⟨hkind, helname, -, -, hwrite, hdefault, -⟩ := hsame
        change el.kind = .plain kind at hkind
        change el.name = f.name at helname
        change el.writeOnly = f.writeOnly at hwrite
        change el.fromDefault = (f.fromDefault && true) at hdefault
        rw [Bool.and_true] at hdefault
        have hskip : ¬ (!isValueInput el || el.name = [] || el.name ∈ seen) = true := by
          simp [isValueInput, hkind, helname, hname, hfresh]
        rw [List.singleton_append, serializeFrom, if_neg hskip, hkind]
        dsimp only
        rw [hwrite, hdefault, helname, horiginal]
        cases hdirty : el.dirty with
        | true => simp
        | false =>
            have hmarked : (f.writeOnly || f.fromDefault) = f.isMarked := rfl
            rw [hmarked]
            cases f.isMarked <;> simp
    | checkbox value checked =>
        have helements : f.elements = [f.element .checkbox 0 value checked] := by
          rw [Field.elements, hcontrol]
        have hmem : f.element .checkbox 0 value checked ∈ f.elements := by
          rw [helements]
          exact List.mem_singleton_self _
        have hsame := @final_rendered_same edits f _ _ _ hmem
        have horiginal := @original_final f edits _ (rendered_of_mem hmem)
        refine ⟨f.name :: seen, hnew, ?_⟩
        rw [block_single helements, Field.entry, hcontrol]
        dsimp only
        generalize final edits (f.element .checkbox 0 value checked) = el at *
        obtain ⟨hkind, helname, -, -, -, -, -⟩ := hsame
        change el.kind = .checkbox at hkind
        change el.name = f.name at helname
        have hskip : ¬ (!isValueInput el || el.name = [] || el.name ∈ seen) = true := by
          simp [isValueInput, hkind, helname, hname, hfresh]
        rw [List.singleton_append, serializeFrom, if_neg hskip, hkind]
        dsimp only
        rw [helname, horiginal]
    | radios choices checked =>
        rw [Field.entry, hcontrol]
        dsimp only
        rw [← chosen_radios hcontrol]
        have hradio : ∀ el ∈ f.block edits, el.kind = .radio := fun el hel =>
          radio_of_mem_block hcontrol hel
        cases hfound : f.chosen edits with
        | none =>
            refine ⟨seen, fun name h => .inr h, ?_⟩
            refine serializeFrom_unchecked fun el hel => ⟨hradio el hel, ?_⟩
            rw [(mem_block hel).1, hchosen, hfound]
        | some found =>
            have hmem : found ∈ f.block edits := List.mem_of_find?_eq_some hfound
            obtain ⟨source, hsource, hfinal⟩ := List.mem_map.mp hmem
            have horiginal : original found = f.dataOriginal := by
              rw [← hfinal]
              exact original_final (rendered_of_mem hsource)
            refine ⟨f.name :: seen, hnew, ?_⟩
            cases hblock : f.block edits with
            | nil =>
                rw [hblock] at hmem
                cases hmem
            | cons el els =>
                have hel : el ∈ f.block edits := by
                  rw [hblock]
                  exact List.mem_cons_self
                obtain ⟨helname, hvalue⟩ := mem_block hel
                have hskip : ¬ (!isValueInput el || el.name = [] || el.name ∈ seen) = true := by
                  simp [hvalue, helname, hname, hfresh]
                rw [List.cons_append, serializeFrom, if_neg hskip, hradio el hel]
                dsimp only
                rw [helname, hchosen, hfound]
                dsimp only [Option.map_some]
                rw [horiginal]
                refine serializeFrom_seen fun other hother => .inr ?_
                have hin : other ∈ f.block edits := by
                  rw [hblock]
                  exact List.mem_cons_of_mem el hother
                rw [(mem_block hin).1]
                exact List.mem_cons_self

end Walk

section Document

variable {fields : List Field} {edits : List Edit} {f : Field}

-- Of fields with different names, only the one that is asked for answers.
theorem findSome?_field {α : Type} {answer : Field → Option α}
    (hnodup : (fields.map Field.name).Nodup) (hf : f ∈ fields)
    (hother : ∀ g ∈ fields, g.name ≠ f.name → answer g = none) :
    fields.findSome? answer = answer f := by
  induction fields with
  | nil => cases hf
  | cons g fields ih =>
      rw [List.map_cons, List.nodup_cons] at hnodup
      have hrest : ∀ h ∈ fields, h.name ≠ f.name → answer h = none := fun h hmem =>
        hother h (List.mem_cons_of_mem g hmem)
      rw [List.findSome?_cons]
      rcases List.mem_cons.mp hf with rfl | hf
      · cases hanswer : answer f with
        | some value => rfl
        | none =>
            refine List.findSome?_eq_none_iff.mpr fun h hmem => hrest h hmem fun hname => ?_
            exact hnodup.1 (hname ▸ List.mem_map_of_mem hmem)
      · have hname : g.name ≠ f.name := fun h => hnodup.1 (h ▸ List.mem_map_of_mem hf)
        rw [hother g List.mem_cons_self hname]
        exact ih hnodup.2 hf hrest

theorem checkedRadio_document (hnodup : (fields.map Field.name).Nodup) (hf : f ∈ fields) :
    checkedRadio (fields.flatMap (·.block edits)) f.name = f.chosen edits := by
  unfold checkedRadio
  rw [List.find?_flatMap, findSome?_field hnodup hf]
  · refine List.find?_congr fun el hel => ?_
    rw [(mem_block hel).1]
    simp
  · intro g _ hname
    refine List.find?_eq_none.mpr fun el hel => ?_
    simp [(mem_block hel).1, hname]

-- By induction on the fields that are left: none of their names was met.
theorem serializeFrom_fields {form : List Element} {rest : List Field} {seen : List Text}
    {out : List (Text × Text)} (hnodup : (rest.map Field.name).Nodup)
    (hfresh : ∀ f ∈ rest, f.name ∉ seen)
    (hchosen : ∀ f ∈ rest, checkedRadio form f.name = f.chosen edits) :
    serializeFrom form (rest.flatMap (·.block edits)) seen out =
      rest.foldl (fun out f => record f edits out) out := by
  induction rest generalizing seen out with
  | nil => rfl
  | cons f rest ih =>
      rw [List.map_cons, List.nodup_cons] at hnodup
      obtain ⟨seen', hseen, hwalk⟩ :=
        @serializeFrom_block form edits f (rest.flatMap (·.block edits)) seen out
          (hfresh f List.mem_cons_self) (hchosen f List.mem_cons_self)
      rw [List.flatMap_cons, hwalk, List.foldl_cons]
      refine ih hnodup.2 (fun g hg hmem => ?_) fun g hg => hchosen g (List.mem_cons_of_mem f hg)
      rcases hseen g.name hmem with hname | hmem
      · exact hnodup.1 (hname ▸ List.mem_map_of_mem hg)
      · exact hfresh g (List.mem_cons_of_mem f hg) hmem

end Document

section Submitted

variable {form : Form} {events : List form.Event}

def Form.edits (events : List form.Event) : List Edit :=
  events.map Form.Event.edit

theorem after_eq : form.after events = form.fields.flatMap (·.block (Form.edits events)) := by
  unfold Form.after initForm Form.elements Field.block
  rw [foldl_fire, List.map_map, List.map_flatMap]
  rfl

theorem submitted_eq :
    form.submitted events =
      form.fields.foldl (fun out f => record f (Form.edits events) out) [] := by
  unfold Form.submitted serialize
  rw [after_eq]
  refine serializeFrom_fields form.names_nodup (fun f _ h => by cases h) fun f hf => ?_
  exact checkedRadio_document form.names_nodup hf

end Submitted

end Stra2us.Page.Touched
