import Stra2us.Foundation.Dict
import Stra2us.Foundation.Xml

namespace Stra2us.Sanitizers

open Foundation

section Allowlists

def svgNs : Text := "http://www.w3.org/2000/svg".toList

def allowedTags : List Text :=
  ["svg", "g", "path", "circle", "ellipse", "rect", "line", "polyline", "polygon", "text", "tspan",
    "defs", "linearGradient", "radialGradient", "stop", "use", "title", "desc"].map String.toList

def geometricAttrs : List Text :=
  ["d", "cx", "cy", "r", "rx", "ry", "x", "y", "x1", "y1", "x2", "y2", "width", "height", "points",
    "transform", "viewBox", "offset"].map String.toList

def presentationAttrs : List Text :=
  ["fill", "stroke", "stroke-width", "opacity", "fill-opacity", "stroke-opacity",
    "stroke-linecap", "stroke-linejoin", "stroke-dasharray", "font-family", "font-size",
    "text-anchor", "stop-color", "stop-opacity", "gradientUnits", "gradientTransform",
    "spreadMethod"].map String.toList

def structuralAttrs : List Text :=
  ["id", "class", "xmlns", "version", "preserveAspectRatio"].map String.toList

def allowedAttrs : List Text :=
  geometricAttrs ++ presentationAttrs ++ structuralAttrs

end Allowlists

-- What stops the walk: a finding, or the interpreter's limit on nested calls.
inductive SvgError
  | eventHandler (tag name : Text)
  | href (tag value : Text)
  | script
  | foreignObject
  | root (name : Text)
  | rejected
  | recursion
deriving DecidableEq, Repr

namespace SvgError

-- Every error but the interpreter's own is an `SvgSanitizeError`.
def message (repr : Text → Text) : SvgError → Option Text
  | .eventHandler tag name =>
      some ("<".toList ++ tag ++ " ".toList ++ name ++ "=...>: event handlers not allowed".toList)
  | .href tag value =>
      some ("<".toList ++ tag ++ " href=".toList ++ repr value ++
        ">: only same-document `#` refs allowed".toList)
  | .script => some "<script> not allowed in SVG asset".toList
  | .foreignObject => some "<foreignObject> not allowed in SVG asset".toList
  | .root name => some ("root element must be <svg>, got <".toList ++ name ++ ">".toList)
  | .rejected => some "<svg> root rejected by allowlist (unexpected)".toList
  | .recursion => none

def IsSanitize (error : SvgError) : Prop :=
  error ≠ .recursion

end SvgError

section Walk

-- No character beyond ASCII has one of the letters looked for as its lower case.
def lowerCase (name : Text) : Text :=
  name.map Char.toLower

def hrefOk (value : Text) : Bool :=
  "#".toList <+: value && '\n' ∉ value && '\r' ∉ value

-- The value to keep, if any.
def checkAttr (tagLocal : Text) (attr : QName) (value : Text) : Except SvgError (Option Text) :=
  let name := attr.name
  let nameCi := lowerCase name
  if "on".toList <+: nameCi then .error (.eventHandler tagLocal name)
  else if nameCi = "style".toList then .ok none
  else if nameCi = "href".toList then
    if hrefOk value then .ok (some value) else .error (.href tagLocal value)
  else if name ∈ allowedAttrs then .ok (some value)
  else .ok none

def keepAttribs (tagLocal : Text) : List (QName × Text) → Except SvgError (List (Text × Text))
  | [] => .ok []
  | (attr, value) :: rest => do
      let kept ← checkAttr tagLocal attr value
      let others ← keepAttribs tagLocal rest
      .ok (kept.toList.map (fun value => (attr.name, value)) ++ others)

def emitName (name : Text) : QName :=
  ⟨none, name⟩

-- A local name that comes twice keeps its first place and its last value.
def cleanAttribs (tagLocal : Text) (attrib : List (QName × Text)) :
    Except SvgError (List (QName × Text)) := do
  let kept ← keepAttribs tagLocal attrib
  .ok ((Dict.ofList kept).entries.map fun pair => (emitName pair.1, pair.2))

-- Elements beside each other, with so many nested calls left for each of them.
def walk : Nat → Forest QName → Except SvgError (Forest QName)
  | _, .nil => .ok .nil
  | 0, .cons _ _ _ _ _ _ => .error .recursion
  | frames + 1, .cons tag attrib text children tail rest =>
      if tag.name = "script".toList then .error .script
      else if tag.name = "foreignObject".toList then .error .foreignObject
      else if tag.name ∉ allowedTags then walk (frames + 1) rest
      else do
        let cleaned ← cleanAttribs tag.name attrib
        let inside ← walk frames children
        let others ← walk (frames + 1) rest
        .ok (.cons ⟨some svgNs, tag.name⟩ cleaned text inside tail others)

-- The root element, which nothing follows.
@[ext]
structure Document where
  tag : QName
  attrib : List (QName × Text)
  text : Text
  children : Forest QName
deriving DecidableEq, Repr

def Document.forest (d : Document) : Forest QName :=
  .cons d.tag d.attrib d.text d.children [] .nil

def sanitizeTree (frames : Nat) (d : Document) : Except SvgError Document :=
  if d.tag.name ≠ "svg".toList then .error (.root d.tag.name)
  else do
    match ← walk frames d.forest with
    | .cons tag attrib text children _ _ => .ok ⟨tag, attrib, text, children⟩
    | .nil => .error .rejected

end Walk

section Hazards

def HazardTag (tag : QName) : Prop :=
  tag.name = "script".toList ∨ tag.name = "foreignObject".toList

def HazardAttr (a : QName × Text) : Prop :=
  "on".toList <+: lowerCase a.1.name ∨ lowerCase a.1.name = "href".toList ∧ hrefOk a.2 = false

instance (tag : QName) : Decidable (HazardTag tag) :=
  inferInstanceAs (Decidable (_ ∨ _))

instance (a : QName × Text) : Decidable (HazardAttr a) :=
  inferInstanceAs (Decidable (_ ∨ _))

-- Wherever it is.
def Hazardous : Forest QName → Prop
  | .nil => False
  | .cons tag attrib _ children _ rest =>
      HazardTag tag ∨ (∃ a ∈ attrib, HazardAttr a) ∨ Hazardous children ∨ Hazardous rest

-- How many elements the walk is inside of at most; it does not look into what it drops.
def keptDepth : Forest QName → Nat
  | .nil => 0
  | .cons tag _ _ children _ rest =>
      max (if tag.name ∈ allowedTags then 1 + keptDepth children else 1) (keptDepth rest)

-- A hazard of an element whose ancestors are all allowed, with nothing nested too deeply before
-- it.
inductive Reports : Nat → Forest QName → Prop
  | tag {frames tag attrib text children tail rest} (h : HazardTag tag) :
      Reports (frames + 1) (.cons tag attrib text children tail rest)
  | attrib {frames tag attrib text children tail rest} (hallowed : tag.name ∈ allowedTags)
      (h : ∃ a ∈ attrib, HazardAttr a) :
      Reports (frames + 1) (.cons tag attrib text children tail rest)
  | inside {frames tag attrib text children tail rest} (hallowed : tag.name ∈ allowedTags)
      (h : Reports frames children) : Reports (frames + 1) (.cons tag attrib text children tail rest)
  | later {frames tag attrib text children tail rest}
      (hfits : tag.name ∈ allowedTags → keptDepth children ≤ frames)
      (h : Reports (frames + 1) rest) : Reports (frames + 1) (.cons tag attrib text children tail rest)

theorem Reports.hazardous {frames : Nat} {forest : Forest QName} (h : Reports frames forest) :
    Hazardous forest := by
  induction h with
  | tag h => exact .inl h
  | attrib _ h => exact .inr (.inl h)
  | inside _ _ ih => exact .inr (.inr (.inl ih))
  | later _ _ ih => exact .inr (.inr (.inr ih))

end Hazards

section Attributes

variable {tagLocal : Text}

theorem checkAttr_error_iff {attr : QName} {value : Text} :
    (∃ e, checkAttr tagLocal attr value = .error e) ↔ HazardAttr (attr, value) := by
  unfold checkAttr HazardAttr
  dsimp only
  have hkept (hsafe : ¬ ("on".toList <+: lowerCase attr.name ∨
      lowerCase attr.name = "href".toList ∧ hrefOk value = false)) :
      (∃ _ : SvgError, False) ↔ "on".toList <+: lowerCase attr.name ∨
        lowerCase attr.name = "href".toList ∧ hrefOk value = false := by
    constructor
    · rintro ⟨_, hfalse⟩
      exact hfalse.elim
    · exact fun h => absurd h hsafe
  split_ifs with hon hstyle hhref hok hallowed
  · exact ⟨fun _ => .inl hon, fun _ => ⟨_, rfl⟩⟩
  · refine hkept (not_or.mpr ⟨hon, fun h => ?_⟩)
    rw [hstyle] at h
    exact absurd h.1 (by decide)
  · exact hkept (not_or.mpr ⟨hon, fun h => Bool.false_ne_true (h.2.symm.trans hok)⟩)
  · exact ⟨fun _ => .inr ⟨hhref, Bool.not_eq_true _ ▸ hok⟩, fun _ => ⟨_, rfl⟩⟩
  · exact hkept (not_or.mpr ⟨hon, fun h => hhref h.1⟩)
  · exact hkept (not_or.mpr ⟨hon, fun h => hhref h.1⟩)

theorem checkAttr_sanitize {attr : QName} {value : Text} {e : SvgError}
    (h : checkAttr tagLocal attr value = .error e) : e.IsSanitize := by
  unfold checkAttr at h
  dsimp only at h
  split_ifs at h
  · obtain rfl := Except.error.inj h
    exact SvgError.noConfusion
  · obtain rfl := Except.error.inj h
    exact SvgError.noConfusion

theorem keepAttribs_error_iff {attrib : List (QName × Text)} :
    (∃ e, keepAttribs tagLocal attrib = .error e) ↔ ∃ a ∈ attrib, HazardAttr a := by
  induction attrib with
  | nil => simp [keepAttribs]
  | cons a rest ih =>
      obtain ⟨attr, value⟩ := a
      rw [List.exists_mem_cons_iff, ← ih, ← @checkAttr_error_iff tagLocal, keepAttribs]
      cases checkAttr tagLocal attr value with
      | error e => simp [bind, Except.bind]
      | ok kept =>
          cases keepAttribs tagLocal rest with
          | error e => simp [bind, Except.bind]
          | ok others => simp [bind, Except.bind]

theorem keepAttribs_sanitize {attrib : List (QName × Text)} {e : SvgError}
    (h : keepAttribs tagLocal attrib = .error e) : e.IsSanitize := by
  induction attrib with
  | nil => nomatch h
  | cons a rest ih =>
      obtain ⟨attr, value⟩ := a
      rw [keepAttribs] at h
      cases hcheck : checkAttr tagLocal attr value with
      | error e' =>
          rw [hcheck] at h
          obtain rfl := Except.error.inj h
          exact checkAttr_sanitize hcheck
      | ok kept =>
          cases hrest : keepAttribs tagLocal rest with
          | error e' =>
              rw [hcheck, hrest] at h
              obtain rfl := Except.error.inj h
              exact ih hrest
          | ok others =>
              rw [hcheck, hrest] at h
              nomatch h

theorem cleanAttribs_error_iff {attrib : List (QName × Text)} :
    (∃ e, cleanAttribs tagLocal attrib = .error e) ↔ ∃ a ∈ attrib, HazardAttr a := by
  rw [← @keepAttribs_error_iff tagLocal]
  unfold cleanAttribs
  cases keepAttribs tagLocal attrib with
  | error e => simp [bind, Except.bind]
  | ok kept => simp [bind, Except.bind]

theorem cleanAttribs_sanitize {attrib : List (QName × Text)} {e : SvgError}
    (h : cleanAttribs tagLocal attrib = .error e) : e.IsSanitize := by
  unfold cleanAttribs at h
  cases hkept : keepAttribs tagLocal attrib with
  | error e' =>
      rw [hkept] at h
      obtain rfl := Except.error.inj h
      exact keepAttribs_sanitize hkept
  | ok kept =>
      rw [hkept] at h
      nomatch h

end Attributes

section Verdict

variable {frames : Nat} {tag : QName} {attrib : List (QName × Text)} {text : Text}
  {children : Forest QName} {tail : Text} {rest : Forest QName}

theorem not_hazardTag (h : tag.name ∈ allowedTags) : ¬ HazardTag tag := by
  rintro (hname | hname)
  · rw [hname] at h
    exact absurd h (by decide)
  · rw [hname] at h
    exact absurd h (by decide)

theorem walk_hazardTag (h : HazardTag tag) : ∃ e, e.IsSanitize ∧
    walk (frames + 1) (.cons tag attrib text children tail rest) = .error e := by
  rcases h with hname | hname
  · exact ⟨.script, SvgError.noConfusion, by rw [walk, if_pos hname]⟩
  · refine ⟨.foreignObject, SvgError.noConfusion, ?_⟩
    rw [walk, if_neg (by rw [hname]; decide), if_pos hname]

theorem walk_dropped (htag : ¬ HazardTag tag) (h : tag.name ∉ allowedTags) :
    walk (frames + 1) (.cons tag attrib text children tail rest) = walk (frames + 1) rest := by
  obtain ⟨hscript, hobject⟩ := not_or.mp htag
  rw [walk, if_neg hscript, if_neg hobject, if_pos h]

theorem walk_kept (h : tag.name ∈ allowedTags) :
    walk (frames + 1) (.cons tag attrib text children tail rest) = (do
      let cleaned ← cleanAttribs tag.name attrib
      let inside ← walk frames children
      let others ← walk (frames + 1) rest
      .ok (.cons ⟨some svgNs, tag.name⟩ cleaned text inside tail others)) := by
  obtain ⟨hscript, hobject⟩ := not_or.mp (not_hazardTag h)
  rw [walk, if_neg hscript, if_neg hobject, if_neg (not_not.mpr h)]

theorem walk_kept_ok (h : tag.name ∈ allowedTags) {walked : Forest QName}
    (hok : walk (frames + 1) (.cons tag attrib text children tail rest) = .ok walked) :
    ∃ cleaned inside others, cleanAttribs tag.name attrib = .ok cleaned ∧
      walk frames children = .ok inside ∧ walk (frames + 1) rest = .ok others ∧
      walked = .cons ⟨some svgNs, tag.name⟩ cleaned text inside tail others := by
  rw [walk_kept h] at hok
  cases hclean : cleanAttribs tag.name attrib with
  | error e =>
      rw [hclean] at hok
      nomatch hok
  | ok cleaned =>
      cases hinside : walk frames children with
      | error e =>
          rw [hclean, hinside] at hok
          nomatch hok
      | ok inside =>
          cases hothers : walk (frames + 1) rest with
          | error e =>
              rw [hclean, hinside, hothers] at hok
              nomatch hok
          | ok others =>
              rw [hclean, hinside, hothers] at hok
              exact ⟨cleaned, inside, others, rfl, rfl, rfl, (Except.ok.inj hok).symm⟩

-- The first failure is what the walk ends with.
theorem walk_kept_error_iff (h : tag.name ∈ allowedTags) {e : SvgError} :
    walk (frames + 1) (.cons tag attrib text children tail rest) = .error e ↔
      cleanAttribs tag.name attrib = .error e ∨
        (∃ cleaned, cleanAttribs tag.name attrib = .ok cleaned) ∧
          (walk frames children = .error e ∨
            (∃ inside, walk frames children = .ok inside) ∧ walk (frames + 1) rest = .error e) := by
  rw [walk_kept h]
  cases hclean : cleanAttribs tag.name attrib with
  | error e' => simp [bind, Except.bind]
  | ok cleaned =>
      cases hinside : walk frames children with
      | error e' => simp [bind, Except.bind]
      | ok inside =>
          cases hothers : walk (frames + 1) rest with
          | error e' => simp [bind, Except.bind]
          | ok others => simp [bind, Except.bind]

theorem walk_ok_depth {forest walked : Forest QName} (h : walk frames forest = .ok walked) :
    keptDepth forest ≤ frames := by
  induction forest generalizing frames walked with
  | nil => exact Nat.zero_le _
  | cons tag attrib text children tail rest ihChildren ihRest =>
      cases frames with
      | zero => nomatch h
      | succ frames =>
          by_cases htag : HazardTag tag
          · obtain ⟨e, -, herror⟩ := @walk_hazardTag frames tag attrib text children tail rest htag
            rw [herror] at h
            nomatch h
          · unfold keptDepth
            by_cases hallowed : tag.name ∈ allowedTags
            · obtain ⟨_, inside, others, -, hinside, hothers, -⟩ := walk_kept_ok hallowed h
              have hchildren := ihChildren hinside
              have hrest := ihRest hothers
              rw [if_pos hallowed]
              omega
            · rw [walk_dropped htag hallowed] at h
              have hrest := ihRest h
              rw [if_neg hallowed]
              omega

theorem walk_recursion_depth {forest : Forest QName} (h : walk frames forest = .error .recursion) :
    frames < keptDepth forest := by
  induction forest generalizing frames with
  | nil => nomatch h
  | cons tag attrib text children tail rest ihChildren ihRest =>
      unfold keptDepth
      cases frames with
      | zero => split_ifs <;> omega
      | succ frames =>
          by_cases htag : HazardTag tag
          · obtain ⟨e, hsanitize, herror⟩ :=
              @walk_hazardTag frames tag attrib text children tail rest htag
            rw [herror] at h
            exact absurd (Except.error.inj h) hsanitize
          · by_cases hallowed : tag.name ∈ allowedTags
            · rw [if_pos hallowed]
              rcases (walk_kept_error_iff hallowed).mp h with hclean | ⟨-, hinside | ⟨-, hrest⟩⟩
              · exact absurd rfl (cleanAttribs_sanitize hclean)
              · have hchildren := ihChildren hinside
                omega
              · have hlater := ihRest hrest
                omega
            · rw [walk_dropped htag hallowed] at h
              have hlater := ihRest h
              omega

theorem walk_sanitize_iff {forest : Forest QName} :
    (∃ e, walk frames forest = .error e ∧ e.IsSanitize) ↔ Reports frames forest := by
  induction forest generalizing frames with
  | nil =>
      constructor
      · rintro ⟨e, h, -⟩
        cases frames <;> nomatch h
      · intro h
        nomatch h
  | cons tag attrib text children tail rest ihChildren ihRest =>
      cases frames with
      | zero =>
          constructor
          · rintro ⟨e, h, hsanitize⟩
            exact absurd (Except.error.inj h).symm hsanitize
          · intro h
            nomatch h
      | succ frames =>
          constructor
          · rintro ⟨e, h, hsanitize⟩
            by_cases htag : HazardTag tag
            · exact .tag htag
            · by_cases hallowed : tag.name ∈ allowedTags
              · rcases (walk_kept_error_iff hallowed).mp h with
                  hclean | ⟨-, hinside | ⟨⟨inside, hinside⟩, hrest⟩⟩
                · exact .attrib hallowed (cleanAttribs_error_iff.mp ⟨e, hclean⟩)
                · exact .inside hallowed (ihChildren.mp ⟨e, hinside, hsanitize⟩)
                · exact .later (fun _ => walk_ok_depth hinside) (ihRest.mp ⟨e, hrest, hsanitize⟩)
              · rw [walk_dropped htag hallowed] at h
                exact .later (fun h => absurd h hallowed) (ihRest.mp ⟨e, h, hsanitize⟩)
          · intro h
            -- a hazard further on is reported unless an earlier one is
            have hfrom (hallowed : tag.name ∈ allowedTags)
                (hafter : ∀ cleaned, cleanAttribs tag.name attrib = .ok cleaned →
                  ∃ e, walk (frames + 1) (.cons tag attrib text children tail rest) = .error e ∧
                    e.IsSanitize) :
                ∃ e, walk (frames + 1) (.cons tag attrib text children tail rest) = .error e ∧
                  e.IsSanitize := by
              cases hclean : cleanAttribs tag.name attrib with
              | error e =>
                  exact ⟨e, (walk_kept_error_iff hallowed).mpr (.inl hclean),
                    cleanAttribs_sanitize hclean⟩
              | ok cleaned => exact hafter cleaned hclean
            cases h with
            | tag htag =>
                obtain ⟨e, hsanitize, herror⟩ := walk_hazardTag htag
                exact ⟨e, herror, hsanitize⟩
            | attrib hallowed hattr =>
                apply hfrom hallowed
                intro cleaned hclean
                obtain ⟨e, herror⟩ := (@cleanAttribs_error_iff tag.name attrib).mpr hattr
                rw [hclean] at herror
                nomatch herror
            | inside hallowed hinside =>
                apply hfrom hallowed
                intro cleaned hclean
                obtain ⟨e, herror, hsanitize⟩ := ihChildren.mpr hinside
                exact ⟨e, (walk_kept_error_iff hallowed).mpr (.inr ⟨⟨cleaned, hclean⟩, .inl herror⟩),
                  hsanitize⟩
            | later hfits hlater =>
                obtain ⟨e, herror, hsanitize⟩ := ihRest.mpr hlater
                by_cases htag : HazardTag tag
                · obtain ⟨e', hsanitize', herror'⟩ := @walk_hazardTag frames tag attrib text
                    children tail rest htag
                  exact ⟨e', herror', hsanitize'⟩
                · by_cases hallowed : tag.name ∈ allowedTags
                  · apply hfrom hallowed
                    intro cleaned hclean
                    cases hinside : walk frames children with
                    | error e' =>
                        refine ⟨e', (walk_kept_error_iff hallowed).mpr
                          (.inr ⟨⟨cleaned, hclean⟩, .inl hinside⟩), ?_⟩
                        rintro rfl
                        have hdeep := walk_recursion_depth hinside
                        have hshallow := hfits hallowed
                        omega
                    | ok inside =>
                        exact ⟨e, (walk_kept_error_iff hallowed).mpr
                          (.inr ⟨⟨cleaned, hclean⟩, .inr ⟨⟨inside, hinside⟩, herror⟩⟩), hsanitize⟩
                  · rw [walk_dropped htag hallowed]
                    exact ⟨e, herror, hsanitize⟩

end Verdict

section Rejection

variable {frames : Nat} {d : Document}

theorem svg_allowed (hroot : d.tag.name = "svg".toList) : d.tag.name ∈ allowedTags := by
  rw [hroot]
  decide

theorem sanitizeTree_error_iff (hroot : d.tag.name = "svg".toList) {e : SvgError} :
    sanitizeTree frames d = .error e ↔ walk frames d.forest = .error e := by
  unfold sanitizeTree
  rw [if_neg (not_not.mpr hroot)]
  cases hwalk : walk frames d.forest with
  | error e' => simp [bind, Except.bind]
  | ok walked =>
      cases frames with
      | zero => nomatch hwalk
      | succ frames =>
          obtain ⟨cleaned, inside, others, -, -, -, rfl⟩ := walk_kept_ok (svg_allowed hroot) hwalk
          simp [bind, Except.bind]

-- The tree is refused exactly when it has a hazard somewhere.
def RejectsHazards (frames : Nat) (d : Document) : Prop :=
  (∃ e, sanitizeTree frames d = .error e ∧ e.IsSanitize) ↔ Hazardous d.forest

-- What is inside of a dropped element goes unseen.
theorem rejectsHazards_iff (hroot : d.tag.name = "svg".toList) :
    RejectsHazards frames d ↔ ¬ Hazardous d.forest ∨ Reports frames d.forest := by
  have hreports : (∃ e, sanitizeTree frames d = .error e ∧ e.IsSanitize) ↔
      Reports frames d.forest := by
    simp only [sanitizeTree_error_iff hroot]
    exact walk_sanitize_iff
  unfold RejectsHazards
  rw [hreports]
  constructor
  · intro h
    by_cases hhazard : Hazardous d.forest
    · exact .inr (h.mpr hhazard)
    · exact .inl hhazard
  · intro h
    refine ⟨Reports.hazardous, fun hhazard => ?_⟩
    exact h.resolve_left (not_not.mpr hhazard)

def bare (name : String) (children rest : Forest QName) : Forest QName :=
  .cons ⟨some svgNs, name.toList⟩ [] [] children [] rest

def svgOf (children : Forest QName) : Document :=
  ⟨⟨some svgNs, "svg".toList⟩, [], [], children⟩

theorem rejectsHazards_script :
    (svgOf (bare "g" (bare "script" .nil .nil) .nil)).tag.name = "svg".toList ∧
      RejectsHazards 900 (svgOf (bare "g" (bare "script" .nil .nil) .nil)) := by
  refine ⟨rfl, (rejectsHazards_iff rfl).mpr (.inr ?_)⟩
  exact .inside (by decide) (.inside (by decide) (.tag (.inl rfl)))

-- A filter is dropped with the script in it, and the rest is served.
theorem script_in_dropped_element : ¬ ∀ (frames : Nat) (d : Document),
    d.tag.name = "svg".toList → RejectsHazards frames d := by
  intro hall
  let d := svgOf (bare "filter" (bare "script" .nil .nil) .nil)
  have hhazard : Hazardous d.forest :=
    .inr (.inr (.inl (.inr (.inr (.inl (.inl (.inl rfl)))))))
  obtain ⟨e, herror, -⟩ := (hall 900 d rfl).mpr hhazard
  have hok : sanitizeTree 900 d = .ok (svgOf .nil) := by decide +kernel
  rw [hok] at herror
  nomatch herror

end Rejection

end Stra2us.Sanitizers
