import Stra2us.Page.Scope

namespace Stra2us.Page

open Foundation Server

-- The fields that the handler does not pass over.
def Admissible (name : Text) : Prop :=
  name ≠ [] ∧ '/' ∉ name

instance (name : Text) : Decidable (Admissible name) :=
  inferInstanceAs (Decidable (name ≠ [] ∧ '/' ∉ name))

section Overlay

variable (site : Site) (vars : Value) (app device : Text)

-- A flag that is kept is written again.
def keptFlag (key : Text) (store : Store) : Store :=
  if truthy (store.get (encKey key)) then store.set (encKey key) (utf8 "1".toList) else store

-- The store with one packed field in it, and the flag that the catalog or the record asks for.
def recordField (name : Text) (packed : Bytes) (store : Store) : Store :=
  let key := fieldKey app device name
  let stored := store.set (kvKey key) packed
  match declaredEncrypted vars name with
  | some true => stored.set (encKey key) (utf8 "1".toList)
  | some false => stored.delete [encKey key]
  | none => keptFlag key stored

def overlayField (store : Store) (field : Text × Text) : Store :=
  if Admissible field.1 then
    match packField site field.2 with
    | .ok packed => recordField vars app device field.1 packed store
    | .error _ => store
  else store

-- The store with every field in it that can be packed.
def overlay (form : List (Text × Text)) (store : Store) : Store :=
  form.foldl (overlayField site vars app device) store

end Overlay

section Fields

variable {site : Site} {vars : Value} {app device : Text}

theorem keepFlag_eq (key : Text) (w : World) :
    (Handler.get (encKey key) >>= fun wasEncrypted =>
        if truthy wasEncrypted then Handler.set (encKey key) (utf8 "1".toList)
        else pure ()).runOn w =
      (.ok (), { w with store := keptFlag key w.store }) := by
  unfold keptFlag
  change (if truthy (w.store.get (encKey key)) then
      Handler.set (encKey key) (utf8 "1".toList) else pure ()).runOn w = _
  by_cases hflag : truthy (w.store.get (encKey key))
  · rw [if_pos hflag, if_pos hflag]
    rfl
  · rw [if_neg hflag, if_neg hflag]
    rfl

theorem writeField_runOn {name raw : Text} {packed : Bytes}
    (h : packField site raw = .ok packed) (w : World) :
    (writeField site vars app device name raw).runOn w =
      (.ok (), { w with store := recordField vars app device name packed w.store }) := by
  unfold packField at h
  cases hdecode : decodeFormValue site raw with
  | error exn =>
      rw [hdecode] at h
      cases h
  | ok decoded =>
      rw [hdecode] at h
      change packOrRaise decoded = .ok packed at h
      unfold writeField recordField
      simp only [hdecode, h, Handler.runOn_ofExcept_ok_bind]
      cases declaredEncrypted vars name with
      | some encrypted =>
          cases encrypted with
          | true => rfl
          | false => rfl
      | none => exact keepFlag_eq _ { w with store := w.store.set _ packed }

theorem recordField_value {name raw : Text} {packed : Bytes}
    (h : packField site raw = .ok packed) (w : World) :
    (recordField vars app device name packed w.store).get (kvKey (fieldKey app device name)) =
      some packed := by
  obtain ⟨w', hrun, hvalue, -⟩ := @writeField_ok site vars app device name raw packed h w
  rw [writeField_runOn h w] at hrun
  rwa [← (Prod.mk.inj hrun).2] at hvalue

theorem writeFields_all {form : List (Text × Text)}
    (h : ∀ field ∈ form, Admissible field.1 → GoesThrough site field.2) (w : World) :
    (writeFields site vars app device form).runOn w =
      (.ok (), { w with store := overlay site vars app device form w.store }) := by
  induction form generalizing w with
  | nil => rfl
  | cons field form ih =>
      obtain ⟨name, raw⟩ := field
      have hrest := ih fun f hf => h f (List.mem_cons_of_mem _ hf)
      rw [writeFields]
      by_cases hname : Admissible name
      · obtain ⟨packed, hpack⟩ := h (name, raw) (by simp) hname
        have hoverlay : overlayField site vars app device w.store (name, raw) =
            recordField vars app device name packed w.store := by
          rw [overlayField, if_pos hname, hpack]
        rw [if_neg (not_or.mpr hname), Handler.runOn_bind_of_ok (writeField_runOn hpack w), hrest,
          overlay, overlay, List.foldl_cons, hoverlay]
      · have hoverlay : overlayField site vars app device w.store (name, raw) = w.store := by
          rw [overlayField, if_neg hname]
        rw [if_pos (not_and_or.mp hname |>.imp not_not.mp not_not.mp), hrest, overlay, overlay,
          List.foldl_cons, hoverlay]

-- The first field that cannot be packed ends the run, and what went before stays written.
theorem writeFields_stops {before after : List (Text × Text)} {field : Text × Text}
    (hbefore : ∀ f ∈ before, Admissible f.1 → GoesThrough site f.2)
    (hname : Admissible field.1) (hfield : ¬ GoesThrough site field.2) (w : World) :
    ∃ exn, (writeFields site vars app device (before ++ field :: after)).runOn w =
      (.error exn, { w with store := overlay site vars app device before w.store }) := by
  obtain ⟨name, raw⟩ := field
  cases hpack : packField site raw with
  | ok packed => exact absurd ⟨packed, hpack⟩ hfield
  | error exn =>
      refine ⟨exn, ?_⟩
      rw [writeFields_append, Handler.runOn_bind_of_ok (writeFields_all hbefore w), writeFields,
        if_neg (not_or.mpr hname), Handler.runOn_bind_of_error (writeField_error hpack _)]

-- Where not all of a list meets a condition, some element is the first that does not.
theorem exists_first_not {α : Type} {p : α → Prop} {items : List α} (h : ¬ ∀ a ∈ items, p a) :
    ∃ before item after, items = before ++ item :: after ∧ ¬ p item ∧ ∀ a ∈ before, p a := by
  induction items with
  | nil => exact absurd (by simp) h
  | cons item items ih =>
      by_cases hitem : p item
      · have hrest : ¬ ∀ a ∈ items, p a := by
          intro hall
          exact h (List.forall_mem_cons.mpr ⟨hitem, hall⟩)
        obtain ⟨before, first, after, rfl, hfirst, hbefore⟩ := ih hrest
        exact ⟨item :: before, first, after, rfl, hfirst,
          List.forall_mem_cons.mpr ⟨hitem, hbefore⟩⟩
      · exact ⟨[], item, items, rfl, hitem, by simp⟩

theorem first_not_unique {α : Type} {p : α → Prop} {before after before' after' : List α}
    {item item' : α} (h : before ++ item :: after = before' ++ item' :: after')
    (hitem : ¬ p item) (hitem' : ¬ p item') (hbefore : ∀ a ∈ before, p a)
    (hbefore' : ∀ a ∈ before', p a) : before = before' := by
  rcases List.append_eq_append_iff.mp h with ⟨rest, hfront, hback⟩ | ⟨rest, hfront, hback⟩
  · cases rest with
    | nil => rw [hfront, List.append_nil]
    | cons first rest =>
        obtain ⟨rfl, -⟩ := List.cons.inj hback
        exact absurd (hbefore' item (by simp [hfront])) hitem
  · cases rest with
    | nil => rw [hfront, List.append_nil]
    | cons first rest =>
        obtain ⟨rfl, -⟩ := List.cons.inj hback
        exact absurd (hbefore item' (by simp [hfront])) hitem'

end Fields

section Submitted

variable {site : Site} {username app device : Text} {form : List (Text × Text)} {w : World}

def devicePage (app device : Text) : Text :=
  "/app/".toList ++ app ++ '/' :: device

-- Every admissible field has been written, over the store there was.
def SavesAll (site : Site) (app device : Text) (form : List (Text × Text)) (w w' : World) : Prop :=
  (∀ field ∈ form, Admissible field.1 → GoesThrough site field.2) ∧
    ∃ catalog, (loadCatalogDict site app).runOn w = (.ok catalog, w) ∧
      w'.store = overlay site (catalogVars catalog) app device form w.store

-- The answer sends the browser back to the device and everything is saved, or it does not and
-- no record and no flag has changed.
def AllOrNothing (site : Site) (username app device : Text) (form : List (Text × Text))
    (w : World) : Prop :=
  let outcome := (submitDeviceForm site username app device form).runOn w
  (outcome.1 = .ok (devicePage app device) ∧ SavesAll site app device form w outcome.2) ∨
    (outcome.1 ≠ .ok (devicePage app device) ∧
      ∀ key, outcome.2.store.get (kvKey key) = w.store.get (kvKey key))

-- Put together: a form is saved whole or not at all unless the fields in front of the first one
-- that cannot be packed bring something new.
theorem savedWhole_iff : AllOrNothing site username app device form w ↔
    ∀ catalog, Saves site username app device w catalog →
      ∀ before field after, form = before ++ field :: after →
        (∀ f ∈ before, Admissible f.1 → GoesThrough site f.2) →
        Admissible field.1 → ¬ GoesThrough site field.2 →
          ∀ key, (overlay site (catalogVars catalog) app device before w.store).get (kvKey key) =
            w.store.get (kvKey key) := by
  by_cases hsaves : ∃ catalog, Saves site username app device w catalog
  · obtain ⟨catalog, hmay, hload⟩ := hsaves
    have hsame : ∀ other, Saves site username app device w other → other = catalog := by
      intro other hother
      exact Except.ok.inj (Prod.mk.inj (hother.2.symm.trans hload)).1
    unfold AllOrNothing
    rw [submitDeviceForm_runOn hmay hload]
    by_cases hall : ∀ field ∈ form, Admissible field.1 → GoesThrough site field.2
    · rw [Handler.runOn_bind_of_ok (writeFields_all hall w), Handler.runOn_pure]
      refine iff_of_true (.inl ⟨rfl, hall, catalog, hload, rfl⟩) ?_
      intro other _ before field after hform _ hname hfield
      exact absurd (hall field (by simp [hform]) hname) hfield
    · obtain ⟨before, field, after, rfl, hfirst, hbefore⟩ := exists_first_not hall
      obtain ⟨hname, hfield⟩ := Classical.not_imp.mp hfirst
      obtain ⟨exn, hrun⟩ := @writeFields_stops site (catalogVars catalog) app device before after
        field hbefore hname hfield w
      rw [Handler.runOn_bind_of_error hrun]
      constructor
      · rintro (⟨herror, -⟩ | ⟨-, hkept⟩)
        · cases herror
        · intro other hother before' field' after' hform hbefore' hname' hfield' key
          have hfront : before = before' := first_not_unique hform hfirst
            (fun h => hfield' (h hname')) hbefore hbefore'
          rw [hsame other hother, ← hfront]
          exact hkept key
      · intro h
        refine .inr ⟨?_, h catalog ⟨hmay, hload⟩ before field after rfl hbefore hname hfield⟩
        intro herror
        cases herror
  · have hnone : ∀ catalog, ¬ Saves site username app device w catalog := fun catalog h =>
      hsaves ⟨catalog, h⟩
    obtain ⟨answer, hrun, hanswer⟩ := @unsaved_runOn site username app device form w hnone
    unfold AllOrNothing
    rw [hrun]
    refine iff_of_true (.inr ⟨hanswer, fun _ => rfl⟩) ?_
    · intro catalog h
      exact absurd h (hnone catalog)

end Submitted

section Small

def deviceSite : Site :=
  documentSite "device".toList

-- One past the largest integer that MessagePack has a form for.
def tooLarge : Text :=
  "18446744073709551616".toList

theorem packField_five : packField deviceSite ['5'] = .ok [0x05] := by
  have hdecode : decodeFormValue deviceSite ['5'] = .ok (.int 5) := rfl
  rw [packField, hdecode]
  rfl

theorem packField_tooLarge :
    packField deviceSite tooLarge = .error (.python "ValueError".toList) := by
  have hdecode : decodeFormValue deviceSite tooLarge = .ok (.int 18446744073709551616) := rfl
  rw [packField, hdecode]
  rfl

-- The first field has been saved when the second one cannot be.
theorem half_saved : ¬ AllOrNothing deviceSite ['r'] ['l'] ['d']
    [(['n'], ['5']), (['m'], tooLarge)] World.published := by
  have hfive : ∀ f ∈ [(['n'], ['5'])], Admissible f.1 → GoesThrough deviceSite f.2 := by
    intro f hf _
    obtain rfl := List.mem_singleton.mp hf
    exact ⟨_, packField_five⟩
  have hlarge : ¬ GoesThrough deviceSite tooLarge := by
    rintro ⟨packed, hpack⟩
    rw [packField_tooLarge] at hpack
    cases hpack
  obtain ⟨exn, hrun⟩ := @writeFields_stops deviceSite
    (catalogVars (some (document "device".toList))) ['l'] ['d'] [(['n'], ['5'])] []
    (['m'], tooLarge) hfive (by decide) hlarge World.published
  have hsubmit : (submitDeviceForm deviceSite ['r'] ['l'] ['d']
      [(['n'], ['5']), (['m'], tooLarge)]).runOn World.published = _ :=
    (submitDeviceForm_runOn (maySubmit_published _) (loads_published _)).trans
      (Handler.runOn_bind_of_error hrun)
  unfold AllOrNothing
  rw [hsubmit]
  rintro (⟨hanswer, -⟩ | ⟨-, hkept⟩)
  · cases hanswer
  · have hfield := hkept (fieldKey ['l'] ['d'] ['n'])
    have hwritten : (overlay deviceSite (catalogVars (some (document "device".toList))) ['l'] ['d']
        [(['n'], ['5'])] World.published.store).get (kvKey (fieldKey ['l'] ['d'] ['n'])) =
          some [0x05] := by
      have hoverlay : overlay deviceSite (catalogVars (some (document "device".toList))) ['l']
          ['d'] [(['n'], ['5'])] World.published.store =
            recordField (catalogVars (some (document "device".toList))) ['l'] ['d'] ['n'] [0x05]
              World.published.store := by
        rw [overlay, List.foldl_cons, List.foldl_nil, overlayField, if_pos (by decide),
          packField_five]
      rw [hoverlay]
      exact recordField_value packField_five World.published
    have hbefore : World.published.store.get (kvKey (fieldKey ['l'] ['d'] ['n'])) = none := rfl
    rw [hwritten, hbefore] at hfield
    cases hfield

end Small

end Stra2us.Page
