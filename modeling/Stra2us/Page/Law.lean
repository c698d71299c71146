import Mathlib.Data.List.Nodup
import Stra2us.Page.Serialize

namespace Stra2us.Page.Touched

open Foundation

section Payload

variable {out : List (Text × Text)} {name value : Text} {entry : Text × Text}
variable {fields : List Field} {edits : List Edit} {f : Field}

theorem mem_assign :
    entry ∈ assign out name value ↔
      (name ≠ "__proto__".toList ∧ entry = (name, value)) ∨
        (entry ∈ out ∧ (name = "__proto__".toList ∨ entry.1 ≠ name)) := by
  unfold assign
  split
  · rename_i hname
    constructor
    · exact fun h => .inr ⟨h, .inl hname⟩
    · rintro (⟨hne, -⟩ | ⟨h, -⟩)
      · exact absurd hname hne
      · exact h
  · rename_i hname
    rw [List.mem_append, List.mem_filter, List.mem_singleton, decide_eq_true_eq]
    constructor
    · rintro (⟨h, hne⟩ | h)
      · exact .inr ⟨h, .inr hne⟩
      · exact .inl ⟨hname, h⟩
    · rintro (⟨-, h⟩ | ⟨h, hproto | hne⟩)
      · exact .inr h
      · exact absurd hproto hname
      · exact .inl ⟨h, hne⟩

theorem assign_nodup (h : (out.map Prod.fst).Nodup) :
    ((assign out name value).map Prod.fst).Nodup := by
  unfold assign
  split
  · exact h
  · rw [List.map_append]
    refine List.Nodup.append ?_ (List.nodup_singleton name) ?_
    · exact h.sublist (List.filter_sublist.map Prod.fst)
    · intro other hother hname
      obtain ⟨entry, hentry, rfl⟩ := List.mem_map.mp hother
      have hne := of_decide_eq_true (List.mem_filter.mp hentry).2
      exact hne (List.mem_singleton.mp hname)

-- A name that a payload can carry.
def Sendable (name : Text) : Prop :=
  name ≠ [] ∧ name ≠ "__proto__".toList

theorem mem_record (hfresh : ∀ entry ∈ out, entry.1 ≠ f.name) :
    entry ∈ record f edits out ↔
      entry ∈ out ∨ (entry.1 = f.name ∧ Sendable f.name ∧ f.entry edits = some entry.2) := by
  unfold record
  split
  · rename_i hname
    exact (or_iff_left fun h => h.2.1.1 hname).symm
  · rename_i hname
    cases hentry : f.entry edits with
    | none => exact (or_iff_left fun h => by cases h.2.2).symm
    | some value =>
        dsimp only
        rw [mem_assign]
        constructor
        · rintro (⟨hproto, rfl⟩ | ⟨h, -⟩)
          · exact .inr ⟨rfl, ⟨hname, hproto⟩, rfl⟩
          · exact .inl h
        · rintro (h | ⟨hfst, hsend, hvalue⟩)
          · exact .inr ⟨h, .inr (hfresh entry h)⟩
          · exact .inl ⟨hsend.2, Prod.ext hfst (Option.some.inj hvalue).symm⟩

theorem record_nodup (h : (out.map Prod.fst).Nodup) :
    ((record f edits out).map Prod.fst).Nodup := by
  unfold record
  split
  · exact h
  · split
    · exact assign_nodup h
    · exact h

theorem foldl_record_nodup (h : (out.map Prod.fst).Nodup) :
    ((fields.foldl (fun out f => record f edits out) out).map Prod.fst).Nodup := by
  induction fields generalizing out with
  | nil => exact h
  | cons f fields ih => exact ih (record_nodup h)

theorem mem_foldl_record (hnodup : (fields.map Field.name).Nodup)
    (hfresh : ∀ f ∈ fields, ∀ entry ∈ out, entry.1 ≠ f.name) :
    entry ∈ fields.foldl (fun out f => record f edits out) out ↔
      entry ∈ out ∨
        ∃ f ∈ fields, entry.1 = f.name ∧ Sendable f.name ∧ f.entry edits = some entry.2 := by
  induction fields generalizing out with
  | nil => simp
  | cons f fields ih =>
      rw [List.map_cons, List.nodup_cons] at hnodup
      have hhead := hfresh f List.mem_cons_self
      rw [List.foldl_cons, ih hnodup.2, mem_record hhead, or_assoc]
      · simp only [List.mem_cons, exists_eq_or_imp]
      · intro g hg other hother
        rcases (mem_record hhead).mp hother with h | ⟨hname, -⟩
        · exact hfresh g (List.mem_cons_of_mem f hg) other h
        · rw [hname]
          intro h
          exact hnodup.1 (h ▸ List.mem_map_of_mem hg)

end Payload

section Sent

variable {form : Form} {events : List form.Event} {f : Field} {value : Text}

theorem submitted_nodup : ((form.submitted events).map Prod.fst).Nodup := by
  rw [submitted_eq]
  exact foldl_record_nodup List.nodup_nil

theorem field_ext {g : Field} (hf : f ∈ form.fields) (hg : g ∈ form.fields)
    (hname : f.name = g.name) : f = g :=
  List.inj_on_of_nodup_map form.names_nodup hf hg hname

theorem mem_submitted (hf : f ∈ form.fields) :
    (f.name, value) ∈ form.submitted events ↔
      Sendable f.name ∧ f.entry (Form.edits events) = some value := by
  rw [submitted_eq, mem_foldl_record form.names_nodup fun _ _ _ h => by cases h]
  constructor
  · rintro (h | ⟨g, hg, hname, hsend, hentry⟩)
    · cases h
    · obtain rfl := field_ext hf hg hname
      exact ⟨hsend, hentry⟩
  · rintro ⟨hsend, hentry⟩
    exact .inr ⟨f, hf, rfl, hsend, hentry⟩

end Sent

section Live

variable {form : Form} {events : List form.Event} {f : Field} {edits : List Edit}

theorem liveValue_document (hf : f ∈ form.fields) :
    liveValue (form.after events) f.name =
      ((f.block (Form.edits events)).find? (·.live.isSome)).bind Element.live := by
  unfold liveValue
  rw [after_eq, List.find?_flatMap, findSome?_field form.names_nodup hf]
  · congr 1
    refine List.find?_congr fun el hel => ?_
    simp [(mem_block hel).1]
  · intro g _ hname
    refine List.find?_eq_none.mpr fun el hel => ?_
    simp [(mem_block hel).1, hname]

theorem edits_mem {place : Nat} (hf : f ∈ form.fields) :
    (∃ edit ∈ Form.edits events, edit.name = f.name ∧ edit.place = place) ↔
      ∃ event ∈ events, event.field = f ∧ event.place.val = place := by
  constructor
  · rintro ⟨edit, hedit, hname, hplace⟩
    obtain ⟨event, hevent, rfl⟩ := List.mem_map.mp hedit
    exact ⟨event, hevent, field_ext event.mem hf hname, hplace⟩
  · rintro ⟨event, hevent, hfield, hplace⟩
    refine ⟨event.edit, List.mem_map_of_mem hevent, ?_, hplace⟩
    exact congrArg Field.name hfield

-- A control that stands alone is dirty once its field was edited.
theorem final_single_dirty {kind : ElementKind} {value : Text} {checked : Bool}
    (hf : f ∈ form.fields) (h : f.elements = [f.element kind 0 value checked]) :
    (final (Form.edits events) (f.element kind 0 value checked)).dirty = true ↔
      f.Edited events := by
  have hmem : f.element kind 0 value checked ∈ f.elements := by
    rw [h]
    exact List.mem_singleton_self _
  rw [final_dirty (rendered_of_mem hmem), edits_mem hf]
  constructor
  · rintro ⟨event, hevent, hfield, -⟩
    exact ⟨event, hevent, hfield⟩
  · rintro ⟨event, hevent, rfl⟩
    have hlength : event.field.elements.length = 1 := congrArg List.length h
    have hplace := event.place.isLt
    refine ⟨event, hevent, rfl, ?_⟩
    change event.place.val = 0
    omega

end Live

section Radios

variable {form : Form} {events : List form.Event} {f : Field} {edits : List Edit}
variable {choices : List Text} {checked : Option Nat}

theorem radioElements_getElem {start index : Nat} (h : index < choices.length) :
    (f.radioElements checked start choices)[index]? =
      some (f.element .radio (start + index) choices[index]
        (checked = some (start + index))) := by
  induction choices generalizing start index with
  | nil => cases h
  | cons choice choices ih =>
      cases index with
      | zero => rfl
      | succ index =>
          have hindex : index < choices.length := Nat.lt_of_succ_lt_succ h
          rw [Field.radioElements, List.getElem?_cons_succ, ih hindex]
          have hplace : start + 1 + index = start + (index + 1) := by omega
          rw [hplace]
          rfl

theorem radioElements_length {start : Nat} :
    (f.radioElements checked start choices).length = choices.length := by
  induction choices generalizing start with
  | nil => rfl
  | cons choice choices ih => exact congrArg (· + 1) ih

theorem radio_at {place : Nat} (h : f.control = .radios choices checked)
    (hplace : place < f.elements.length) :
    ∃ el ∈ f.elements, el.place = place := by
  unfold Field.elements at hplace ⊢
  rw [h] at hplace ⊢
  dsimp only at hplace ⊢
  rw [radioElements_length] at hplace
  have hget := @radioElements_getElem f choices checked 0 place hplace
  rw [Nat.zero_add] at hget
  exact ⟨_, List.mem_of_getElem? hget, rfl⟩

theorem place_lt {el : Element} (h : f.control = .radios choices checked) (hel : el ∈ f.elements) :
    el.place < choices.length := by
  unfold Field.elements at hel
  rw [h] at hel
  have hlt : ∀ start, el ∈ f.radioElements checked start choices →
      el.place < start + choices.length := by
    clear h hel
    induction choices with
    | nil => intro start h; cases h
    | cons choice choices ih =>
        intro start h
        rw [List.length_cons]
        rcases List.mem_cons.mp h with rfl | h
        · change start < _
          omega
        · have := ih (start + 1) h
          omega
  have := hlt 0 hel
  omega

theorem radio_of_mem {el : Element} (h : f.control = .radios choices checked)
    (hel : el ∈ f.elements) :
    Rendered f el ∧ el.kind = .radio ∧ el.checked = decide (checked = some el.place) := by
  unfold Field.elements at hel
  rw [h] at hel
  exact mem_radioElements hel

theorem chosen_mem {el : Element} (h : f.chosen edits = some el) :
    ∃ source ∈ f.elements, final edits source = el ∧ el.checked = true := by
  obtain ⟨source, hsource, hfinal⟩ := List.mem_map.mp (List.mem_of_find?_eq_some h)
  have hfound := List.find?_some h
  rw [Bool.and_eq_true] at hfound
  exact ⟨source, hsource, hfinal, hfound.2⟩

theorem chosen_isSome {el : Element} (hel : el ∈ f.elements) (hkind : el.kind = .radio)
    (hchecked : (final edits el).checked = true) : ∃ found, f.chosen edits = some found := by
  refine Option.isSome_iff_exists.mp (List.find?_isSome.mpr ⟨final edits el, ?_, ?_⟩)
  · exact List.mem_map_of_mem hel
  · rw [(final_same (rendered_of_mem hel) edits).kind, hchecked, Bool.and_true]
    exact decide_eq_true hkind

-- The last edit of a group leaves the radio it chose checked, and that radio is dirty.
theorem radios_edited (hf : f ∈ form.fields) (h : f.control = .radios choices checked)
    (hedited : f.Edited events) :
    ∃ found, f.chosen (Form.edits events) = some found ∧ found.dirty = true := by
  cases hlast : lastPlace f.name (Form.edits events) with
  | none =>
      obtain ⟨event, hevent, hfield⟩ := hedited
      refine absurd (congrArg Field.name hfield) ?_
      exact lastPlace_none.mp hlast event.edit (List.mem_map_of_mem hevent)
  | some place =>
      obtain ⟨event, hevent, hfield, hplace⟩ := (edits_mem hf).mp (lastPlace_mem hlast)
      have hlt : place < f.elements.length := by
        rw [← hplace, ← hfield]
        exact event.place.isLt
      obtain ⟨el, hel, helplace⟩ := radio_at h hlt
      have hchecked : (final (Form.edits events) el).checked = true := by
        rw [final_checked (rendered_of_mem hel) (radio_of_mem h hel).2.1, hlast]
        exact decide_eq_true helplace.symm
      obtain ⟨found, hfound⟩ := chosen_isSome hel (radio_of_mem h hel).2.1 hchecked
      refine ⟨found, hfound, ?_⟩
      obtain ⟨source, hsource, rfl, hshown⟩ := chosen_mem hfound
      rw [final_checked (rendered_of_mem hsource) (radio_of_mem h hsource).2.1, hlast] at hshown
      rw [final_dirty (rendered_of_mem hsource), ← of_decide_eq_true hshown]
      exact lastPlace_mem hlast

end Radios

section Entry

variable {form : Form} {events : List form.Event} {f : Field}

-- A clean field of this kind is not sent.
def Field.Omitted (f : Field) : Prop :=
  match f.control with
  | .plain _ _ => f.isMarked = true
  | .radios choices checked => ∀ place, checked = some place → choices.length ≤ place
  | .checkbox _ _ => False

theorem radios_clean {choices : List Text} {checked : Option Nat} (hf : f ∈ form.fields)
    (h : f.control = .radios choices checked) (hclean : ¬ f.Edited events) :
    (∀ found, f.chosen (Form.edits events) = some found → found.dirty = false) ∧
      (f.chosen (Form.edits events) = none ↔
        ∀ place, checked = some place → choices.length ≤ place) := by
  have hnone : lastPlace f.name (Form.edits events) = none := by
    refine lastPlace_none.mpr fun edit hedit hname => ?_
    obtain ⟨event, hevent, hfield, -⟩ := (edits_mem hf).mp ⟨edit, hedit, hname, rfl⟩
    exact hclean ⟨event, hevent, hfield⟩
  have hfinal : ∀ el ∈ f.elements, (final (Form.edits events) el).checked = el.checked := by
    intro el hel
    rw [final_checked (rendered_of_mem hel) (radio_of_mem h hel).2.1, hnone]
  constructor
  · intro found hfound
    obtain ⟨source, hsource, rfl, -⟩ := chosen_mem hfound
    refine Bool.eq_false_iff.mpr fun hdirty => ?_
    obtain ⟨edit, hedit, hname, -⟩ := (final_dirty (rendered_of_mem hsource)).mp hdirty
    exact lastPlace_none.mp hnone edit hedit hname
  · constructor
    · intro hchosen place hplace
      refine Nat.le_of_not_lt fun hlt => ?_
      have hlength : place < f.elements.length := by
        unfold Field.elements
        rw [h]
        exact radioElements_length.symm ▸ hlt
      obtain ⟨el, hel, helplace⟩ := radio_at h hlength
      obtain ⟨-, hkind, hchecked⟩ := radio_of_mem h hel
      have hshown : (final (Form.edits events) el).checked = true := by
        rw [hfinal el hel, hchecked, helplace]
        exact decide_eq_true hplace
      obtain ⟨found, hfound⟩ := chosen_isSome hel hkind hshown
      rw [hchosen] at hfound
      cases hfound
    · intro hplaces
      cases hchosen : f.chosen (Form.edits events) with
      | none => rfl
      | some found =>
          obtain ⟨source, hsource, rfl, hshown⟩ := chosen_mem hchosen
          rw [hfinal source hsource, (radio_of_mem h hsource).2.2] at hshown
          have hle := hplaces source.place (of_decide_eq_true hshown)
          have hlt := place_lt h hsource
          omega

theorem live_of_checked {el : Element} (hkind : el.kind = .radio) :
    el.live.isSome = el.checked := by
  unfold Element.live
  rw [hkind]
  cases el.checked <;> rfl

theorem liveValue_radios {choices : List Text} {checked : Option Nat} (hf : f ∈ form.fields)
    (h : f.control = .radios choices checked) :
    liveValue (form.after events) f.name = (f.chosen (Form.edits events)).map (·.value) := by
  rw [liveValue_document hf]
  have hfind : (f.block (Form.edits events)).find? (·.live.isSome) =
      f.chosen (Form.edits events) := by
    rw [chosen_radios h]
    exact List.find?_congr fun el hel => live_of_checked (radio_of_mem_block h hel)
  rw [hfind]
  cases hchosen : f.chosen (Form.edits events) with
  | none => rfl
  | some found =>
      have hmem : found ∈ f.block (Form.edits events) := List.mem_of_find?_eq_some hchosen
      obtain ⟨-, -, -, hshown⟩ := chosen_mem hchosen
      change found.live = some found.value
      unfold Element.live
      rw [radio_of_mem_block h hmem, hshown]
      rfl

theorem liveValue_single {kind : ElementKind} {value : Text} {checked : Bool}
    (hf : f ∈ form.fields) (h : f.elements = [f.element kind 0 value checked])
    (hshown : (final (Form.edits events) (f.element kind 0 value checked)).live.isSome = true) :
    liveValue (form.after events) f.name =
      (final (Form.edits events) (f.element kind 0 value checked)).live := by
  rw [liveValue_document hf, block_single h, List.find?_singleton, if_pos hshown]
  rfl

theorem single_kind (edits : List Edit) {kind : ElementKind} {value : Text} {checked : Bool}
    (h : f.elements = [f.element kind 0 value checked]) :
    (final edits (f.element kind 0 value checked)).kind = kind := by
  have hmem : f.element kind 0 value checked ∈ f.elements := by
    rw [h]
    exact List.mem_singleton_self _
  exact (final_rendered_same hmem).kind

theorem entry_edited (hf : f ∈ form.fields) (hedited : f.Edited events) :
    ∃ value, f.entry (Form.edits events) = some value ∧
      liveValue (form.after events) f.name = some value := by
  cases hcontrol : f.control with
  | plain kind value =>
      have helements : f.elements = [f.element (.plain kind) 0 value false] := by
        rw [Field.elements, hcontrol]
      have hdirty := (final_single_dirty hf helements).mpr hedited
      have hkind := single_kind (Form.edits events) helements
      have hlive : (final (Form.edits events) (f.element (.plain kind) 0 value false)).live =
          some (final (Form.edits events) (f.element (.plain kind) 0 value false)).value := by
        rw [Element.live, hkind]
      refine ⟨_, ?_, (liveValue_single hf helements (by rw [hlive]; rfl)).trans hlive⟩
      rw [Field.entry, hcontrol]
      exact if_pos hdirty
  | checkbox value checked =>
      have helements : f.elements = [f.element .checkbox 0 value checked] := by
        rw [Field.elements, hcontrol]
      have hdirty := (final_single_dirty hf helements).mpr hedited
      have hkind := single_kind (Form.edits events) helements
      have hlive : (final (Form.edits events) (f.element .checkbox 0 value checked)).live =
          some (if (final (Form.edits events) (f.element .checkbox 0 value checked)).checked
            then "true".toList else "false".toList) := by
        rw [Element.live, hkind]
      refine ⟨_, ?_, (liveValue_single hf helements (by rw [hlive]; rfl)).trans hlive⟩
      rw [Field.entry, hcontrol]
      exact congrArg some (if_pos hdirty)
  | radios choices checked =>
      obtain ⟨found, hfound, hdirty⟩ := radios_edited hf hcontrol hedited
      refine ⟨found.value, ?_, ?_⟩
      · rw [Field.entry, hcontrol]
        dsimp only
        rw [← chosen_radios hcontrol, hfound, Option.map_some, if_pos hdirty]
      · rw [liveValue_radios hf hcontrol, hfound, Option.map_some]

theorem entry_clean (hf : f ∈ form.fields) (hclean : ¬ f.Edited events) :
    (f.Omitted → f.entry (Form.edits events) = none) ∧
      (¬ f.Omitted → f.entry (Form.edits events) = some f.dataOriginal) := by
  unfold Field.entry Field.Omitted
  cases hcontrol : f.control with
  | plain kind value =>
      have helements : f.elements = [f.element (.plain kind) 0 value false] := by
        rw [Field.elements, hcontrol]
      have hdirty := mt (final_single_dirty hf helements).mp hclean
      dsimp only
      rw [if_neg hdirty]
      exact ⟨fun h => if_pos h, fun h => if_neg h⟩
  | checkbox value checked =>
      have helements : f.elements = [f.element .checkbox 0 value checked] := by
        rw [Field.elements, hcontrol]
      have hdirty := mt (final_single_dirty hf helements).mp hclean
      dsimp only
      rw [if_neg hdirty]
      exact ⟨False.elim, fun _ => rfl⟩
  | radios choices checked =>
      obtain ⟨hdirty, hnone⟩ := radios_clean hf hcontrol hclean
      dsimp only
      rw [← chosen_radios hcontrol, ← hnone]
      constructor
      · intro h
        rw [h]
        rfl
      · intro h
        obtain ⟨found, hfound⟩ := Option.ne_none_iff_exists'.mp h
        rw [hfound, Option.map_some, hdirty found hfound]
        rfl

end Entry

section Law

variable (form : Form) (events : List form.Event)

-- What a field has to be for the payload to keep the law on it.
structure Field.Lawful {form : Form} (f : Field) (events : List form.Event) : Prop where
  named : f.Edited events → Sendable f.name
  quiet : ¬ f.Edited events → f.isMarked = true → Sendable f.name → f.Omitted

theorem law_iff : Law form events ↔ ∀ f ∈ form.fields, f.Lawful events := by
  constructor
  · intro law f hf
    constructor
    · intro hedited
      obtain ⟨value, -, hmem⟩ := law.edited f hf hedited
      exact ((mem_submitted hf).mp hmem).1
    · intro hclean hmarked hsend
      by_contra homitted
      have hentry := (entry_clean hf hclean).2 homitted
      exact law.marked f hf hclean hmarked _ ((mem_submitted hf).mpr ⟨hsend, hentry⟩)
  · intro lawful
    refine ⟨submitted_nodup, ?_, ?_, ?_⟩
    · intro f hf hedited
      obtain ⟨value, hentry, hlive⟩ := entry_edited hf hedited
      exact ⟨value, hlive, (mem_submitted hf).mpr ⟨(lawful f hf).named hedited, hentry⟩⟩
    · intro f hf hclean hmarked value hmem
      obtain ⟨hsend, hentry⟩ := (mem_submitted hf).mp hmem
      have homitted := (lawful f hf).quiet hclean hmarked hsend
      rw [(entry_clean hf hclean).1 homitted] at hentry
      cases hentry
    · intro f hf hclean _ value hmem
      have hentry := ((mem_submitted hf).mp hmem).2
      by_cases homitted : f.Omitted
      · rw [(entry_clean hf hclean).1 homitted] at hentry
        cases hentry
      · rw [(entry_clean hf hclean).2 homitted] at hentry
        exact (Option.some.inj hentry).symm

end Law

section Default

-- A radio group that shows the default of the catalog.
def modeField : Field where
  name := "mode".toList
  dataOriginal := "auto".toList
  writeOnly := false
  fromDefault := true
  control := .radios ["auto".toList, "manual".toList] (some 0)

def modeForm : Form where
  fields := [modeField]
  names_nodup := List.nodup_singleton _

theorem default_radio_sent :
    ¬ ∀ (form : Form) (events : List form.Event), Law form events := by
  intro law
  have hclean : ¬ modeField.Edited ([] : List modeForm.Event) := by
    rintro ⟨event, hevent, -⟩
    cases hevent
  have hsent : (modeField.name, "auto".toList) ∈ modeForm.submitted [] := by decide
  exact (law modeForm []).marked modeField (List.mem_singleton_self _) hclean rfl _ hsent

end Default

end Stra2us.Page.Touched
