import Stra2us.Client.Settings
import Stra2us.Page.Form

namespace Stra2us.Page

open Foundation Server Client

section Written

variable {site : Site} {vars : Value} {app device name raw : Text}
  {before after : List (Text × Text)} {w : World}

-- A field that the handler gets to, and that can be packed, is written.
theorem writeFields_reached {packed : Bytes}
    (hnames : ∀ field ∈ before ++ (name, raw) :: after, isFieldName field.1)
    (hother : ∀ field ∈ before ++ after, field.1 ≠ name)
    (hbefore : ∀ field ∈ before, GoesThrough site field.2) (hpack : packField site raw = .ok packed) :
    ((writeFields site vars app device (before ++ (name, raw) :: after)).runOn w).2.store.get
      (kvKey (fieldKey app device name)) = some packed := by
  have hname : isFieldName name := hnames (name, raw) (by simp)
  have hfirst : ∀ field ∈ before, isFieldName field.1 := fun field hf => hnames field (by simp [hf])
  have hlast : ∀ field ∈ after, isFieldName field.1 := fun field hf => hnames field (by simp [hf])
  obtain ⟨w₁, hrun⟩ := (@writeFields_ok site vars app device before hfirst w).mpr hbefore
  obtain ⟨w₂, hfield, hvalue, -⟩ := @writeField_ok site vars app device name raw packed hpack w₁
  rw [writeFields_append, Handler.runOn_bind_of_ok hrun, writeFields_cons hname,
    Handler.runOn_bind_of_ok hfield]
  have hother' : ∀ field ∈ after, field.1 ≠ name := fun field hf => hother field (by simp [hf])
  exact (@writeFields_frame site vars app device name after hname hlast hother' w₂ _ (.inl rfl)).trans
    hvalue

-- Any other leaves its record as it was.
theorem writeFields_unreached
    (hnames : ∀ field ∈ before ++ (name, raw) :: after, isFieldName field.1)
    (hother : ∀ field ∈ before ++ after, field.1 ≠ name)
    (hnot : ¬ ((∀ field ∈ before, GoesThrough site field.2) ∧ GoesThrough site raw)) :
    ((writeFields site vars app device (before ++ (name, raw) :: after)).runOn w).2.store.get
      (kvKey (fieldKey app device name)) = w.store.get (kvKey (fieldKey app device name)) := by
  have hname : isFieldName name := hnames (name, raw) (by simp)
  have hfirst : ∀ field ∈ before, isFieldName field.1 := fun field hf => hnames field (by simp [hf])
  have hother' : ∀ field ∈ before, field.1 ≠ name := fun field hf => hother field (by simp [hf])
  have hframe :=
    @writeFields_frame site vars app device name before hname hfirst hother' w _ (.inl rfl)
  rw [writeFields_append, Handler.runOn_bind]
  cases hrun : (writeFields site vars app device before).runOn w with
  | mk result w₁ =>
      rw [hrun] at hframe
      cases result with
      | error exn => exact hframe
      | ok value =>
          have hbefore := (@writeFields_ok site vars app device before hfirst w).mp ⟨w₁, hrun⟩
          cases hpack : packField site raw with
          | ok packed => exact absurd ⟨hbefore, packed, hpack⟩ hnot
          | error exn =>
              dsimp only
              rw [writeFields_cons hname, Handler.runOn_bind_of_error (writeField_error hpack w₁)]
              exact hframe

theorem writeFields_absent {form : List (Text × Text)} (hname : isFieldName name)
    (hnames : ∀ field ∈ form, isFieldName field.1) (hother : ∀ field ∈ form, field.1 ≠ name) :
    ((writeFields site vars app device form).runOn w).2.store.get
      (kvKey (fieldKey app device name)) = w.store.get (kvKey (fieldKey app device name)) :=
  writeFields_frame hname hnames hother w (.inl rfl)

end Written

section Submitted

variable {site : Site} {username app device : Text} {form : List (Text × Text)} {w : World}

-- The handler gets to writing the fields, with this catalog.
def Saves (site : Site) (username app device : Text) (w : World)
    (catalog : Option (List (Value × Value))) : Prop :=
  MaySubmit site username app device w ∧
    (loadCatalogDict site app).runOn w = (.ok catalog, w)

theorem loadCatalogDict_runOn (w : World) :
    (loadCatalogDict site app).runOn w = (catalogOfRecord site (w.store.get (catalogKey app)), w) :=
  rfl

theorem saved_of_saves {catalog : Option (List (Value × Value))}
    (h : Saves site username app device w catalog) :
    ((submitDeviceForm site username app device form).runOn w).2 =
      ((writeFields site (catalogVars catalog) app device form).runOn w).2 := by
  rw [submitDeviceForm_runOn h.1 h.2, Handler.runOn_bind]
  cases (writeFields site (catalogVars catalog) app device form).runOn w with
  | mk result w' =>
      cases result with
      | ok value => rfl
      | error exn => rfl

-- Where it does not, nothing changes and the browser is not sent to the device's page.
theorem unsaved_runOn (h : ∀ catalog, ¬ Saves site username app device w catalog) :
    ∃ answer, (submitDeviceForm site username app device form).runOn w = (answer, w) ∧
      answer ≠ .ok ("/app/".toList ++ app ++ '/' :: device) := by
  unfold submitDeviceForm
  rw [Handler.runOn_bind]
  have hcontext := getAdminContext_runOn site.jsonDepth site.rescueUsers username w
  cases hacl : adminContextIn site.jsonDepth site.rescueUsers username w.store with
  | error exn =>
      rw [hcontext, hacl]
      exact ⟨.error exn, rfl, by simp⟩
  | ok acl =>
      rw [hacl] at hcontext
      rw [hcontext]
      dsimp only
      cases hcheck : checkAcl acl ("kv/".toList ++ app ++ '/' :: device) .write with
      | error exn =>
          cases exn with
          | http status detail =>
              refine ⟨.ok "/app/".toList, rfl, ?_⟩
              intro hsame
              have hlength := congrArg List.length (Except.ok.inj hsame)
              simp at hlength
          | python name => exact ⟨.error (.python name), rfl, by simp⟩
          | outOfFuel => exact ⟨.error .outOfFuel, rfl, by simp⟩
      | ok value =>
          dsimp only
          rw [Handler.runOn_bind, loadCatalogDict_runOn]
          cases hload : catalogOfRecord site (w.store.get (catalogKey app)) with
          | error exn => exact ⟨.error exn, rfl, by simp⟩
          | ok catalog =>
              refine absurd ⟨⟨acl, hcontext, hcheck⟩, ?_⟩ (h catalog)
              rw [loadCatalogDict_runOn, hload]

theorem unsaved (h : ∀ catalog, ¬ Saves site username app device w catalog) :
    ((submitDeviceForm site username app device form).runOn w).2 = w := by
  obtain ⟨answer, hrun, -⟩ := @unsaved_runOn _ _ _ _ form _ h
  rw [hrun]

end Submitted

section Names

variable {strOf : Value → Text} {attr : Text → Text} {values : Text → Resolved}

-- What the gate makes sure of about the names of a catalog.
structure WellNamed (pairs : List (Value × Value)) : Prop where
  distinct : (pairs.map Prod.fst).Nodup
  named : ∀ pair ∈ pairs, ∃ name var, pair = (.str name, .dict var) ∧ isVarName name

theorem customerFacingVars_sublist (pairs : List (Value × Value)) :
    ((customerFacingVars (.dict pairs)).map fun var => Value.str var.1).Sublist
      (pairs.map Prod.fst) := by
  unfold customerFacingVars
  induction pairs with
  | nil => exact List.Sublist.refl _
  | cons pair rest ih =>
      dsimp only at ih ⊢
      rw [List.filterMap_cons, List.map_cons]
      split
      · exact ih.cons _
      · rename_i found hfound
        obtain ⟨key, value⟩ := pair
        have hkey : key = .str found.1 := by
          cases key with
          | str name =>
              cases value with
              | dict var =>
                  dsimp only at hfound
                  split at hfound
                  · rw [← Option.some.inj hfound]
                  · cases hfound
              | _ => cases hfound
          | _ => cases hfound
        rw [List.map_cons, hkey]
        exact ih.cons_cons _

theorem editCards_names (cards : List Card) (edit : Text × Edit) :
    (editCards cards edit).map Card.name = cards.map Card.name := by
  unfold editCards
  rw [List.map_map]
  apply List.map_congr_left
  intro card _
  dsimp only [Function.comp]
  split
  · rfl
  · rfl

theorem foldl_editCards_names (edits : List (Text × Edit)) (cards : List Card) :
    (edits.foldl editCards cards).map Card.name = cards.map Card.name := by
  induction edits generalizing cards with
  | nil => rfl
  | cons edit rest ih => exact (ih _).trans (editCards_names cards edit)

theorem serialize_sublist (cards : List Card) :
    ((serialize cards).map Prod.fst).Sublist (cards.map Card.name) := by
  unfold serialize
  induction cards with
  | nil => exact List.Sublist.refl _
  | cons card rest ih =>
      rw [List.filterMap_cons, List.map_cons]
      cases card.control.sent with
      | none => exact ih.cons _
      | some raw => exact ih.cons_cons _

-- Whatever is done to the page, a Save posts fields of the catalog, each once.
theorem savedForm_sublist (pairs : List (Value × Value)) (edits : List (Text × Edit)) :
    ((savedForm strOf attr (.dict pairs) values edits).map fun field => Value.str field.1).Sublist
      (pairs.map Prod.fst) := by
  have hsent := serialize_sublist (edits.foldl editCards (renderCards strOf attr (.dict pairs) values))
  rw [foldl_editCards_names] at hsent
  have hsent := hsent.map Value.str
  unfold renderCards at hsent
  rw [List.map_map, List.map_map, List.map_map] at hsent
  exact hsent.trans (customerFacingVars_sublist pairs)

theorem savedForm_named {pairs : List (Value × Value)} (hnames : WellNamed pairs)
    {edits : List (Text × Edit)} :
    ∀ field ∈ savedForm strOf attr (.dict pairs) values edits, isFieldName field.1 := by
  intro field hfield
  have hmem := (@savedForm_sublist strOf attr values pairs edits).subset
    (List.mem_map.mpr ⟨field, hfield, rfl⟩)
  obtain ⟨pair, hpair, hkey⟩ := List.mem_map.mp hmem
  obtain ⟨name, var, rfl, hname⟩ := hnames.named pair hpair
  obtain rfl := Value.str.inj hkey
  exact isFieldName_of_isVarName hname

theorem savedForm_distinct {pairs : List (Value × Value)} (hnames : WellNamed pairs)
    {edits : List (Text × Edit)} :
    ((savedForm strOf attr (.dict pairs) values edits).map Prod.fst).Nodup := by
  have hnodup := (@savedForm_sublist strOf attr values pairs edits).nodup hnames.distinct
  rw [show (fun field : Text × Text => Value.str field.1) = Value.str ∘ Prod.fst from rfl,
    ← List.map_map] at hnodup
  exact List.Nodup.of_map _ hnodup

-- A field stands in the form once.
theorem others_of_distinct {before after : List (Text × Text)} {name raw : Text}
    (h : ((before ++ (name, raw) :: after).map Prod.fst).Nodup) :
    ∀ field ∈ before ++ after, field.1 ≠ name := by
  rw [List.map_append, List.map_cons, List.nodup_middle, List.nodup_cons, ← List.map_append] at h
  intro field hfield heq
  exact h.1 (List.mem_map.mpr ⟨field, hfield, heq⟩)

end Names

section Respected

variable {site : Site} {strOf : Value → Text} {attr : Text → Text} {username app device : Text}

def DeviceScoped (vars : List (Value × Value)) (name : Text) : Prop :=
  ∃ var scopes, Value.lookup vars name = some (.dict var) ∧
    Value.lookup var "scope".toList = some (.list scopes) ∧ .str "device".toList ∈ scopes

-- Of the device's records only those change whose variable has the device in its scope.
def ScopeRespected (vars : List (Value × Value)) (app device : Text) (s s' : Store) : Prop :=
  ∀ name, isFieldName name →
    s'.get (kvKey (fieldKey app device name)) ≠ s.get (kvKey (fieldKey app device name)) →
    DeviceScoped vars name

-- What the page has for its variables, from the store it was made from.
def pageValues (strOf : Value → Text) (s : Store) (app device : Text)
    (vars : List (Value × Value)) (name : Text) : Resolved :=
  match Value.lookup vars name with
  | some (.dict var) => resolveValue strOf s app device name var
  | _ => ⟨none, false, false⟩

-- What is posted for the other variables, as far as the handler gets, is stored already.
def BringsNothing (site : Site) (vars : List (Value × Value)) (app device : Text) (s : Store)
    (form : List (Text × Text)) : Prop :=
  ∀ before name raw after packed, form = before ++ (name, raw) :: after →
    ¬ DeviceScoped vars name → (∀ field ∈ before, GoesThrough site field.2) →
    packField site raw = .ok packed → s.get (kvKey (fieldKey app device name)) = some packed

theorem writeFields_respects_iff {form : List (Text × Text)} {declared : Value}
    {vars : List (Value × Value)} (hnames : ∀ field ∈ form, isFieldName field.1)
    (hdistinct : (form.map Prod.fst).Nodup) (w : World) :
    ScopeRespected vars app device w.store
        ((writeFields site declared app device form).runOn w).2.store ↔
      BringsNothing site vars app device w.store form := by
  constructor
  · intro h before name raw after packed hform hscope hbefore hpack
    rw [hform] at hnames hdistinct
    have hother := others_of_distinct hdistinct
    have hwritten := @writeFields_reached site declared app device name raw before after w packed
      hnames hother hbefore hpack
    rw [← hform] at hwritten
    by_contra hne
    refine hscope (h name (hnames (name, raw) (by simp)) ?_)
    rw [hwritten]
    exact fun heq => hne heq.symm
  · intro h name hname hchanged
    by_contra hscope
    apply hchanged
    by_cases hmem : name ∈ form.map Prod.fst
    · obtain ⟨field, hfield, rfl⟩ := List.mem_map.mp hmem
      obtain ⟨before, after, hform⟩ := List.append_of_mem hfield
      rw [hform] at hnames hdistinct
      have hother := others_of_distinct hdistinct
      by_cases hreached : (∀ f ∈ before, GoesThrough site f.2) ∧ GoesThrough site field.2
      · obtain ⟨hbefore, packed, hpack⟩ := hreached
        rw [h before field.1 field.2 after packed hform hscope hbefore hpack, hform]
        exact writeFields_reached hnames hother hbefore hpack
      · rw [hform]
        exact writeFields_unreached hnames hother hreached
    · apply writeFields_absent hname hnames
      intro field hfield heq
      exact hmem (List.mem_map.mpr ⟨field, hfield, heq⟩)

-- Put together: a Save respects the declared scopes when the user may not save at all, or when
-- nothing it posts for a variable without the device in its scope is new to the store.
theorem scope_respected_iff {catalog pairs : List (Value × Value)} {loaded : Store} {w : World}
    {edits : List (Text × Edit)} (hvars : catalogVars (some catalog) = .dict pairs)
    (hnames : WellNamed pairs)
    (hload : (loadCatalogDict site app).runOn w = (.ok (some catalog), w)) :
    ScopeRespected pairs app device w.store
        ((submitDeviceForm site username app device (savedForm strOf attr
          (catalogVars (some catalog)) (pageValues strOf loaded app device pairs)
          edits)).runOn w).2.store ↔
      (MaySubmit site username app device w →
        BringsNothing site pairs app device w.store (savedForm strOf attr
          (catalogVars (some catalog)) (pageValues strOf loaded app device pairs) edits)) := by
  rw [hvars]
  by_cases hmay : MaySubmit site username app device w
  · rw [saved_of_saves ⟨hmay, hload⟩, writeFields_respects_iff (savedForm_named hnames)
      (savedForm_distinct hnames)]
    exact ⟨fun h _ => h, fun h => h hmay⟩
  · rw [unsaved fun _ h => hmay h.1]
    exact ⟨fun _ h => absurd h hmay, fun _ _ _ h => absurd rfl h⟩

end Respected

section Small

-- One variable, an integer with a label, and where it may be stored.
def labelled (scope : Text) : List (Value × Value) :=
  [(.str ['n'], .dict [(.str "type".toList, .str "int".toList),
    (.str "scope".toList, .list [.str scope]), (.str "label".toList, .str ['N'])])]

def document (scope : Text) : List (Value × Value) :=
  [(.str "app".toList, .str ['l']), (.str "vars".toList, .dict (labelled scope))]

def documentSite (scope : Text) : Site :=
  { formSite with safeLoad := fun _ => .ok (.dict (document scope)) }

def World.published : World :=
  { World.knowing with store := World.knowing.store.set (catalogKey ['l']) [0xa1, 0x79] }

theorem wellNamed_labelled (scope : Text) : WellNamed (labelled scope) where
  distinct := List.nodup_singleton _
  named := by
    intro pair hpair
    obtain rfl := List.mem_singleton.mp hpair
    exact ⟨['n'], _, rfl, by decide⟩

theorem loads_published (scope : Text) :
    (loadCatalogDict (documentSite scope) ['l']).runOn World.published =
      (.ok (some (document scope)), World.published) := by
  have hget : World.published.store.get (catalogKey ['l']) = some [0xa1, 0x79] :=
    Store.get_set_self _ _ _
  have hunpack : Msgpack.unpackb false [0xa1, 0x79] = some (.str ['y']) := by rfl
  rw [loadCatalogDict_runOn, hget, catalogOfRecord, Option.bind_some, hunpack]
  rfl

theorem maySubmit_published (scope : Text) :
    MaySubmit (documentSite scope) ['r'] ['l'] ['d'] World.published :=
  ⟨rescueAcl, rfl, by decide⟩

theorem deviceScoped_labelled (scope : Text) :
    DeviceScoped (labelled scope) ['n'] ↔ scope = "device".toList := by
  constructor
  · rintro ⟨var, scopes, hvar, hscopes, hmem⟩
    obtain rfl := Value.dict.inj (Option.some.inj hvar)
    obtain rfl := Value.list.inj (Option.some.inj hscopes)
    exact (Value.str.inj (List.mem_singleton.mp hmem)).symm
  · rintro rfl
    exact ⟨_, _, rfl, rfl, List.mem_singleton_self _⟩

-- A variable with the device in its scope is saved there.
theorem saves_in_scope :
    ScopeRespected (labelled "device".toList) ['l'] ['d'] World.published.store
      ((submitDeviceForm (documentSite "device".toList) ['r'] ['l'] ['d']
        (savedForm (fun _ => []) id (catalogVars (some (document "device".toList)))
          (pageValues (fun _ => []) World.published.store ['l'] ['d'] (labelled "device".toList))
          [(['n'], .enter ['5'])])).runOn World.published).2.store := by
  refine (scope_respected_iff rfl (wellNamed_labelled _) (loads_published _)).mpr fun _ => ?_
  intro before name raw after packed hform hscope hbefore hpack
  have hsent : (name, raw) ∈ [(['n'], ['5'])] := by
    change _ ∈ savedForm (fun _ => []) id (catalogVars (some (document "device".toList)))
      (pageValues (fun _ => []) World.published.store ['l'] ['d'] (labelled "device".toList))
      [(['n'], .enter ['5'])]
    rw [hform]
    simp
  obtain ⟨rfl, -⟩ := Prod.mk.inj (List.mem_singleton.mp hsent)
  exact absurd ((deviceScoped_labelled _).mpr rfl) hscope

-- One that the catalog keeps for the application is sent as the page has it, untouched, and
-- gets a record of its own for the device.
theorem saves_out_of_scope :
    (loadCatalogDict (documentSite "app".toList) ['l']).runOn World.published =
        (.ok (some (document "app".toList)), World.published) ∧
      WellNamed (labelled "app".toList) ∧
      MaySubmit (documentSite "app".toList) ['r'] ['l'] ['d'] World.published ∧
      ¬ ScopeRespected (labelled "app".toList) ['l'] ['d'] World.published.store
        ((submitDeviceForm (documentSite "app".toList) ['r'] ['l'] ['d']
          (savedForm (fun _ => []) id (catalogVars (some (document "app".toList)))
            (pageValues (fun _ => []) World.published.store ['l'] ['d'] (labelled "app".toList))
            [])).runOn World.published).2.store := by
  refine ⟨loads_published _, wellNamed_labelled _, maySubmit_published _, ?_⟩
  have hform : savedForm (fun _ => []) id (catalogVars (some (document "app".toList)))
      (pageValues (fun _ => []) World.published.store ['l'] ['d'] (labelled "app".toList)) [] =
      [] ++ (['n'], []) :: [] := rfl
  have hname : isFieldName ['n'] := isFieldName_of_isVarName (by decide)
  have hpack : packField (documentSite "app".toList) [] = .ok [0xa0] := rfl
  have hwritten := @writeFields_reached (documentSite "app".toList)
    (catalogVars (some (document "app".toList))) ['l'] ['d'] ['n'] [] [] [] World.published _
    (by simpa using hname) (by simp) (by simp) hpack
  intro h
  rw [hform, saved_of_saves ⟨maySubmit_published _, loads_published _⟩] at h
  refine absurd ((deviceScoped_labelled _).mp (h ['n'] hname ?_)) (by decide)
  rw [hwritten]
  exact Option.some_ne_none _

end Small

end Stra2us.Page
