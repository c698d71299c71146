import Stra2us.Page.Device
import Stra2us.Page.Refine
import Stra2us.Page.Save

namespace Stra2us.Page

open Foundation Server

section Sent

variable {strOf : Value → Text} {attr : Text → Text} {var : List (Value × Value)} {rv : Resolved}

-- A field of an untouched page is sent, as far as it is no secret and no default. A group of
-- radio buttons is sent whenever one of them is checked.
def Sends (strOf : Value → Text) (var : List (Value × Value)) (rv : Resolved) : Prop :=
  match radioChoices strOf var with
  | some choices => ∃ choice ∈ choices, isCurrent choice rv.value
  | none => fieldTruthy var "write_only".toList = false ∧ rv.fromDefault = false

theorem sent_iff {raw : Text} :
    (renderWidget strOf attr var rv).sent = some raw ↔
      Sends strOf var rv ∧ raw = attr (rv.value.getD []) := by
  unfold renderWidget Sends
  cases radioChoices strOf var with
  | some choices =>
      dsimp only [Control.sent]
      rw [List.find?_map, Option.map_map]
      cases hfound : choices.find? (fun choice => isCurrent choice rv.value) with
      | none =>
          have hnone := List.find?_eq_none.mp hfound
          refine iff_of_false ?_ fun h => ?_
          · change ((choices.find? fun choice => isCurrent choice rv.value).map _) ≠ _
            rw [hfound]
            exact fun h => by cases h
          · obtain ⟨choice, hchoice, hcurrent⟩ := h.1
            exact hnone choice hchoice hcurrent
      | some choice =>
          have hsome : (choices.find? fun choice => isCurrent choice rv.value).map
              (fun _ => attr (rv.value.getD [])) = some (attr (rv.value.getD [])) := by
            rw [hfound]
            rfl
          constructor
          · intro h
            refine ⟨⟨choice, List.mem_of_find?_eq_some hfound, ?_⟩, ?_⟩
            · exact @List.find?_some _ (fun choice => isCurrent choice rv.value) _ _ hfound
            · exact (Option.some.inj (hsome.symm.trans h)).symm
          · rintro ⟨-, rfl⟩
            exact hsome
  | none =>
      dsimp only [Control.sent]
      cases fieldTruthy var "write_only".toList with
      | true => simp
      | false =>
          cases rv.fromDefault with
          | true => simp
          | false => simp [eq_comm]

theorem mem_savedForm {vars : Value} {values : Text → Resolved} {field : Text × Text} :
    field ∈ savedForm strOf attr vars values [] ↔
      ∃ entry ∈ customerFacingVars vars, Sends strOf entry.2 (values entry.1) ∧
        field = (entry.1, attr ((values entry.1).value.getD [])) := by
  unfold savedForm serialize renderCards
  rw [List.foldl_nil, List.filterMap_map, List.mem_filterMap]
  refine exists_congr fun entry => and_congr_right fun _ => ?_
  rw [Function.comp, Option.map_eq_some_iff]
  constructor
  · rintro ⟨raw, hsent, rfl⟩
    obtain ⟨hsends, rfl⟩ := sent_iff.mp hsent
    exact ⟨hsends, rfl⟩
  · rintro ⟨hsends, rfl⟩
    exact ⟨_, sent_iff.mpr ⟨hsends, rfl⟩, rfl⟩

end Sent

section Frame

variable {site : Site} {vars : Value} {app device : Text} {form : List (Text × Text)} {w : World}

-- A record of the device, or any whose key could not be taken for a flag.
def PlainRecord (app device key : Text) : Prop :=
  ':' ∉ key ∨ ∃ name, isFieldName name ∧ key = fieldKey app device name

theorem flag_ne_fieldKey {key name : Text} (hname : isFieldName name) :
    key ++ ":enc".toList ≠ fieldKey app device name := by
  intro h
  have hcolon : ':' ∈ ":enc".toList := by decide
  have hslash : '/' ∉ ":enc".toList := by decide
  have hsplit : fieldKey app device name = (app ++ '/' :: device) ++ '/' :: name := by
    simp [fieldKey]
  rw [hsplit] at h
  rcases List.append_eq_append_iff.mp h with ⟨more, -, hback⟩ | ⟨more, -, hback⟩
  · exact hslash (by rw [hback]; simp)
  · have hmem : ':' ∈ '/' :: name := by
      rw [hback]
      exact List.mem_append_right more hcolon
    rcases List.mem_cons.mp hmem with hc | hc
    · exact absurd hc (by decide)
    · exact hname.2.2 hc

-- A form leaves every record but those of its fields as it was.
theorem writeFields_stored {key : Text} (hnames : ∀ field ∈ form, isFieldName field.1)
    (hkey : PlainRecord app device key)
    (hother : ∀ field ∈ form, key ≠ fieldKey app device field.1) :
    stored ((writeFields site vars app device form).runOn w).2.store key = stored w.store key := by
  have hissues : (writeFields site vars app device form).Issues (OnlyOverwrites fun k =>
      ∃ field ∈ form, k = kvKey (fieldKey app device field.1) ∨
        k = encKey (fieldKey app device field.1)) :=
    writeFields_issues site vars app device form (fun field hf => ⟨field, hf, .inl rfl⟩)
      fun field hf => ⟨field, hf, .inr rfl⟩
  have hvalue : ((writeFields site vars app device form).runOn w).2.store.get (kvKey key) =
      w.store.get (kvKey key) := by
    refine Handler.get_of_issues hissues ?_ (fun clientId h =>
      Kv.nonceKey_ne_kvKey clientId _ h.symm) w
    rintro ⟨field, hf, h | h⟩
    · exact hother field hf (kvKey_injective h)
    · rw [encKey_fieldKey] at h
      have hsame := kvKey_injective h
      rcases hkey with hcolon | ⟨name, hname, rfl⟩
      · exact hcolon (by rw [hsame]; simp [fieldKey])
      · have hcolon : ':' ∈ name := by
          rw [fieldKey_inj.mp hsame]
          simp
        exact hname.2.2 hcolon
  have hflag : ((writeFields site vars app device form).runOn w).2.store.get (encKey key) =
      w.store.get (encKey key) := by
    refine Handler.get_of_issues hissues ?_ (fun clientId h => ?_) w
    · rintro ⟨field, hf, h | h⟩
      · rw [Kv.encKey_eq_kvKey] at h
        exact flag_ne_fieldKey (hnames field hf) (kvKey_injective h)
      · exact hother field hf (encKey_injective h)
    · rw [Kv.encKey_eq_kvKey] at h
      exact Kv.nonceKey_ne_kvKey clientId _ h.symm
  unfold stored
  rw [hvalue, hflag]

end Frame

section Saved

variable {site : Site} {strOf : Value → Text} {fullmatch : Value → Text → Except Exn Bool}
variable {renderMarkdownBlock : Text → Text → Text → Value → Except Exn Text}
variable {publishHash : List (Value × Value) → Except Exn Text}
variable {pinned : List (Text × Text) → Text}
variable {username app device : Text} {catalog : List (Value × Value)} {w : World}

def RecordsKept (app device : Text) (s s' : Store) : Prop :=
  ∀ key, PlainRecord app device key → stored s' key = stored s key

-- The device has a record of its own for the variable, with just what the text on the page is
-- stored as, and encrypted as the catalog has it.
def StoredAsShown (site : Site) (vars : Value) (app device : Text) (s : Store) (name raw : Text) :
    Prop :=
  ∃ packed, packField site raw = .ok packed ∧
    stored s (fieldKey app device name) = (Msgpack.unpackb false packed,
      fieldFlag vars name (s.get (encKey (fieldKey app device name))))

theorem submitted_keeps_iff {form : List (Text × Text)} {w' : World} {vars : Value}
    (hnames : ∀ field ∈ form, isFieldName field.1) (hdistinct : (form.map Prod.fst).Nodup)
    (h : (writeFields site vars app device form).runOn w = (.ok (), w')) :
    RecordsKept app device w.store w'.store ↔
      ∀ field ∈ form, StoredAsShown site vars app device w.store field.1 field.2 := by
  have hleft : ∀ field ∈ form, ∃ packed, packField site field.2 = .ok packed ∧
      stored w'.store (fieldKey app device field.1) = (Msgpack.unpackb false packed,
        fieldFlag vars field.1 (w.store.get (encKey (fieldKey app device field.1)))) := by
    intro field hfield
    obtain ⟨before, after, rfl⟩ := List.append_of_mem hfield
    exact writeFields_stores hnames (others_of_distinct hdistinct) h
  constructor
  · intro hkept field hfield
    obtain ⟨packed, hpack, hstored⟩ := hleft field hfield
    refine ⟨packed, hpack, ?_⟩
    rw [← hkept _ (.inr ⟨field.1, hnames field hfield, rfl⟩), hstored]
  · intro hshown key hkey
    by_cases hfield : ∃ field ∈ form, key = fieldKey app device field.1
    · obtain ⟨field, hfield, rfl⟩ := hfield
      obtain ⟨packed, hpack, hstored⟩ := hleft field hfield
      obtain ⟨packed', hpack', hstored'⟩ := hshown field hfield
      rw [hpack] at hpack'
      rw [hstored, hstored', Except.ok.inj hpack']
    · have hother : ∀ field ∈ form, key ≠ fieldKey app device field.1 := fun field hf heq =>
        hfield ⟨field, hf, heq⟩
      have hframe := @writeFields_stored site vars app device form w key hnames hkey hother
      rwa [h] at hframe

theorem storedValues_mem {vars : List (Text × List (Value × Value))} {s : Store}
    (hdistinct : (vars.map Prod.fst).Nodup) {entry : Text × List (Value × Value)}
    (hentry : entry ∈ vars) :
    storedValues strOf s app device vars entry.1 =
      some (resolveValue strOf s app device entry.1 entry.2) := by
  unfold storedValues
  induction vars with
  | nil => cases hentry
  | cons first vars ih =>
      rw [List.map_cons, List.nodup_cons] at hdistinct
      by_cases hname : first.1 = entry.1
      · have hsame : entry = first := by
          rcases List.mem_cons.mp hentry with rfl | hentry
          · rfl
          · exact absurd (hname ▸ List.mem_map_of_mem hentry) hdistinct.1
        rw [List.find?_cons_of_pos (by simp [hname]), hsame]
        rfl
      · rw [List.find?_cons_of_neg (by simp [hname])]
        refine ih hdistinct.2 ?_
        rcases List.mem_cons.mp hentry with rfl | hentry
        · exact absurd rfl hname
        · exact hentry

-- Put together, over the renderer, the browser, the script and the handler: a Save of a page
-- that nobody has touched, once it is answered, leaves the records as they are exactly when each
-- variable it sends has a record of the device's own that its text on the page stands for.
theorem untouchedSave_keeps_iff (hmarkdown : Markup.Sanitizing renderMarkdownBlock)
    (hinert : Markup.Inert renderMarkdownBlock)
    (hvars : Markup.PlainVars strOf (customerFacingVars (catalogVars (some catalog))))
    (hsaves : Saves site username app device w (some catalog)) {html : Text}
    (hpage : settingsSection strOf fullmatch renderMarkdownBlock publishHash w.store app device
      (some catalog) = .ok html) :
    ∃ form : Touched.Form,
      (Html.tokenize html).map (Markup.documentElements pinned) = some form.elements ∧
        ∀ w', (submitDeviceForm site username app device (form.submitted [])).runOn w =
            (.ok (devicePage app device), w') →
          (RecordsKept app device w.store w'.store ↔
            ∀ entry ∈ customerFacingVars (catalogVars (some catalog)),
              Sends strOf entry.2 (resolveValue strOf w.store app device entry.1 entry.2) →
                StoredAsShown site (catalogVars (some catalog)) app device w.store entry.1
                  (Html.shown ((resolveValue strOf w.store app device entry.1
                    entry.2).value.getD []))) := by
  obtain ⟨vars, hfacing, hpage⟩ := Markup.exists_of_bind_ok hpage
  obtain rfl : vars = customerFacingVars (catalogVars (some catalog)) :=
    Markup.customerFacing_ok hfacing
  obtain ⟨form, helements, hrefines⟩ := @Markup.renderPage_refines strOf fullmatch
    renderMarkdownBlock publishHash pinned app device catalog _ hmarkdown hinert hvars html hpage
  have hgenuine : Touched.Genuine ([] : List form.Event) := by
    intro before event after heq
    exact absurd heq.symm (by simp)
  have hsubmitted := hrefines [] hgenuine
  rw [List.map_nil] at hsubmitted
  have hvalue : ∀ entry ∈ customerFacingVars (catalogVars (some catalog)),
      Markup.resolvedOf (storedValues strOf w.store app device
        (customerFacingVars (catalogVars (some catalog)))) entry.1 =
          resolveValue strOf w.store app device entry.1 entry.2 := by
    intro entry hentry
    unfold Markup.resolvedOf
    rw [storedValues_mem hvars.distinct hentry]
    rfl
  have hnames : ∀ field ∈ form.submitted [], isFieldName field.1 := by
    intro field hfield
    rw [hsubmitted, mem_savedForm] at hfield
    obtain ⟨entry, hentry, -, rfl⟩ := hfield
    exact Client.isFieldName_of_isVarName (hvars.named entry hentry)
  refine ⟨form, helements, fun w' hanswer => ?_⟩
  rw [submitDeviceForm_runOn hsaves.1 hsaves.2, Handler.runOn_bind_ok] at hanswer
  obtain ⟨_, w₁, hwritten, hpure⟩ := hanswer
  obtain rfl := (Prod.mk.inj hpure).2
  rw [submitted_keeps_iff hnames Touched.submitted_nodup hwritten]
  constructor
  · intro h entry hentry hsends
    have hmem : (entry.1, Html.shown ((resolveValue strOf w.store app device entry.1
        entry.2).value.getD [])) ∈ form.submitted [] := by
      rw [hsubmitted, mem_savedForm]
      exact ⟨entry, hentry, by rwa [hvalue entry hentry], by rw [hvalue entry hentry]⟩
    exact h _ hmem
  · intro h field hfield
    rw [hsubmitted, mem_savedForm] at hfield
    obtain ⟨entry, hentry, hsends, rfl⟩ := hfield
    rw [hvalue entry hentry] at hsends ⊢
    exact h entry hentry hsends

end Saved

section Small

def smallSection (s : Store) : Except Exn Text :=
  settingsSection (fun _ => []) (fun _ _ => .ok true) Markup.smallBlock
    (fun _ => .ok "0a1b2c3d".toList) s ['l'] ['d'] (some (document "device".toList))

theorem smallSection_ok : ∃ html, smallSection World.published.store = .ok html := by
  cases h : smallSection World.published.store with
  | ok html => exact ⟨html, rfl⟩
  | error exn =>
      have hok : (smallSection World.published.store).isOk = true := by decide +kernel
      rw [h] at hok
      cases hok

theorem plainVars_document : Markup.PlainVars (fun _ => [])
    (customerFacingVars (catalogVars (some (document "device".toList)))) where
  distinct := List.nodup_singleton _
  named := by
    intro entry hentry
    obtain rfl := List.mem_singleton.mp hentry
    decide
  choices := by
    intro entry hentry
    obtain rfl := List.mem_singleton.mp hentry
    exact {
      enum := fun _ h => by cases h
      values := fun _ h => by cases h
      distinct := fun _ h => by cases h
      nonNull := fun _ h => by cases h }

-- An integer that is stored nowhere: its empty text is saved, and the device has a new record.
theorem untouchedSave_document :
    ∃ form : Touched.Form, ∀ w', (submitDeviceForm deviceSite ['r'] ['l'] ['d']
        (form.submitted [])).runOn World.published = (.ok (devicePage ['l'] ['d']), w') →
      ¬ RecordsKept ['l'] ['d'] World.published.store w'.store := by
  obtain ⟨html, hpage⟩ := smallSection_ok
  obtain ⟨form, -, hkeeps⟩ := @untouchedSave_keeps_iff deviceSite (fun _ => [])
    (fun _ _ => .ok true) Markup.smallBlock (fun _ => .ok "0a1b2c3d".toList) (fun _ => []) ['r']
    ['l'] ['d'] (document "device".toList) World.published Markup.smallBlock_sanitizing
    Markup.smallBlock_inert plainVars_document
    ⟨maySubmit_published "device".toList, loads_published "device".toList⟩ html hpage
  refine ⟨form, fun w' hanswer hkept => ?_⟩
  have hnone : stored World.published.store (fieldKey ['l'] ['d'] ['n']) = (none, false) := rfl
  obtain ⟨packed, hpack, hstored⟩ := (hkeeps w' hanswer).mp hkept (['n'], _)
    (List.mem_singleton_self _) ⟨rfl, rfl⟩
  obtain rfl := Except.ok.inj hpack
  rw [hnone] at hstored
  cases hstored

end Small

end Stra2us.Page
