import Stra2us.Page.Controls

namespace Stra2us.Page.Markup

open Foundation Server
open Foundation.Html (Piece Token)
open Touched (Element Field Form)

section Fields

variable (strOf : Value → Text) (pinned : List (Text × Text) → Text)

-- The field that the card of a variable is meant to hold.
def pageField (values : Text → Option Resolved) (entry : Text × Var) : Except Exn Field := do
  let resolved := values entry.1
  let current := resolved.bind Resolved.value
  let shape ← widgetShape strOf entry.2 current
  .ok (fieldOf strOf pinned entry.1 entry.2 current (resolved.any Resolved.fromDefault) shape)

def pageFields (catalog : Var) (values : Text → Option Resolved) : Except Exn (List Field) := do
  let vars ← customerFacing catalog
  vars.mapM (pageField strOf pinned values)

end Fields

section Silence

variable {strOf : Value → Text} {fullmatch : Value → Text → Except Exn Bool}
variable {renderMarkdownBlock : Text → Text → Text → Value → Except Exn Text}
variable {app device hash name : Text} {theme ui : Value} {var : Var} {current : Option Text}

-- The sanitizer keeps no form control.
def Inert (renderMarkdownBlock : Text → Text → Text → Value → Except Exn Text) : Prop :=
  ∀ app hash blockId source markup,
    renderMarkdownBlock app hash blockId source = .ok markup → Silent (readTokens markup)

def Quiet (pieces : List Piece) : Prop :=
  ∀ p ∈ pieces, Silent p.tokens

theorem silent_end {tag : Text} {attributes : Attributes} {before : Text} :
    Silent (Piece.tag before true tag attributes).tokens :=
  silent_tag (.inl rfl)

theorem quiet_text {tag : String} (h : tag.toList ∉ labels ["input", "textarea", "select"])
    (attributes : Attributes) (text : Text) : Quiet (textElement tag attributes text) := by
  unfold Quiet textElement
  rw [List.forall_mem_cons, List.forall_mem_singleton]
  exact ⟨silent_tag (.inr h), silent_end⟩

theorem quiet_raw {tag : String} (h : tag.toList ∉ labels ["input", "textarea", "select"])
    (attributes : Attributes) {markup : Text} (hmarkup : Silent (readTokens markup)) :
    Quiet (rawElement tag attributes markup) := by
  unfold Quiet rawElement
  rw [List.forall_mem_cons, List.forall_mem_singleton]
  refine ⟨silent_tag (.inr h), silent_append hmarkup ?_⟩
  intro other hother
  rw [Token.tag.inj (List.mem_singleton.mp hother)]
  exact .inl rfl

theorem quiet_append {a b : List Piece} (ha : Quiet a) (hb : Quiet b) : Quiet (a ++ b) :=
  List.forall_mem_append.mpr ⟨ha, hb⟩

theorem quiet_plainHelp : Quiet (plainHelp strOf var) := by
  unfold plainHelp
  split
  · split
    · exact quiet_text (by decide) _ _
    · exact fun p hp => by cases hp
  · exact fun p hp => by cases hp

theorem quiet_markdownHelp {help : List Piece} (hinert : Inert renderMarkdownBlock)
    (h : markdownHelp (renderMarkdownBlock app hash) name var = .ok help) : Quiet help := by
  unfold markdownHelp at h
  split at h
  · split at h
    · obtain ⟨rendered, hrendered, h⟩ := exists_of_bind_ok h
      obtain rfl := Except.ok.inj h
      exact quiet_raw (by decide) _ (hinert _ _ _ _ _ hrendered)
    · obtain rfl := Except.ok.inj h
      exact fun p hp => by cases hp
  · obtain rfl := Except.ok.inj h
    exact fun p hp => by cases hp

theorem silent_badgeNote : Silent badgeNote.tokens := by
  have htokens : badgeNote.tokens =
      readTokens " &mdash; not in current allowed values".toList ++
        [.tag ⟨true, "span".toList, []⟩] := rfl
  have hread : readTokens " &mdash; not in current allowed values".toList =
      (" — not in current allowed values".toList).map .char := by
    decide +kernel
  rw [htokens, hread]
  refine silent_append (silent_chars _) fun other hother => ?_
  rw [Token.tag.inj (List.mem_singleton.mp hother)]
  exact .inl rfl

theorem quiet_badge (current : Option Text) : Quiet (badge current) := by
  unfold Quiet badge
  rw [List.forall_mem_cons]
  refine ⟨silent_tag (.inr (by decide)), quiet_append (quiet_text (by decide) _ _) ?_⟩
  exact fun p hp => (List.mem_singleton.mp hp) ▸ silent_badgeNote

theorem quiet_reveal (name : Text) (var : Var) : Quiet (revealPieces name var) := by
  unfold revealPieces
  split
  · exact quiet_text (by decide) _ _
  · exact fun p hp => by cases hp

theorem quiet_chrome {chrome : List Piece} (h : chromeMarkup strOf app theme = .ok chrome) :
    Quiet chrome := by
  obtain ⟨logo, hlogo, h⟩ := exists_of_bind_ok h
  obtain ⟨product, hproduct, h⟩ := exists_of_bind_ok h
  obtain rfl := Except.ok.inj h
  have hlogo : Quiet logo := by
    obtain ⟨asset, -, hlogo⟩ := exists_of_bind_ok hlogo
    cases asset with
    | none =>
        obtain rfl := Except.ok.inj hlogo
        exact fun p hp => by cases hp
    | some asset =>
        obtain ⟨alt, -, hlogo⟩ := exists_of_bind_ok hlogo
        obtain ⟨fallback, -, hlogo⟩ := exists_of_bind_ok hlogo
        obtain rfl := Except.ok.inj hlogo
        exact fun p hp => (List.mem_singleton.mp hp) ▸ silent_tag (.inr (by decide))
  have hproduct : Quiet product := by
    obtain ⟨name, -, hproduct⟩ := exists_of_bind_ok hproduct
    cases name with
    | none =>
        obtain rfl := Except.ok.inj hproduct
        exact fun p hp => by cases hp
    | some name =>
        obtain rfl := Except.ok.inj hproduct
        exact quiet_text (by decide) _ _
  unfold Quiet
  rw [List.forall_mem_cons]
  refine ⟨silent_tag (.inr (by decide)), quiet_append hlogo (quiet_append hproduct ?_)⟩
  exact fun p hp => (List.mem_singleton.mp hp) ▸ silent_end

theorem quiet_block {field blockId css : String} {block : List Piece}
    (hinert : Inert renderMarkdownBlock)
    (h : blockMarkup renderMarkdownBlock app hash ui field blockId css = .ok block) :
    Quiet block := by
  obtain ⟨source, -, h⟩ := exists_of_bind_ok h
  cases source with
  | none =>
      obtain rfl := Except.ok.inj h
      exact fun p hp => by cases hp
  | some source =>
      obtain ⟨rendered, hrendered, h⟩ := exists_of_bind_ok h
      obtain rfl := Except.ok.inj h
      exact quiet_raw (by decide) _ (hinert _ _ _ _ _ hrendered)

end Silence

section Cards

variable {strOf : Value → Text} {fullmatch : Value → Text → Except Exn Bool}
variable {renderMarkdownBlock : Text → Text → Text → Value → Except Exn Text}
variable {pinned : List (Text × Text) → Text}
variable {app device hash name : Text} {var : Var} {current : Option Text}

theorem controlsFrom_quiet {pieces : List Piece} (h : Quiet pieces) (rest : List Token) :
    controlsFrom pinned (pieces.flatMap Piece.tokens ++ rest) = controlsFrom pinned rest :=
  controlsFrom_silent (silent_flatMap h) rest

-- What the card of a variable holds: the controls of its shape, and no other.
structure CardReads (strOf : Value → Text) (pinned : List (Text × Text) → Text) (name : Text)
    (var : Var) (current : Option Text) (fromDefault : Bool) (card : List Piece) where
  shape : Shape
  shape_ok : widgetShape strOf var current = .ok shape
  reads : ∀ rest, controlsFrom pinned (card.flatMap Piece.tokens ++ rest) =
    readElements strOf pinned name var current fromDefault shape ++ controlsFrom pinned rest

theorem cardMarkup_reads {fromDefault : Bool} {card : List Piece}
    (hinert : Inert renderMarkdownBlock)
    (h : cardMarkup strOf fullmatch (renderMarkdownBlock app hash) name var current fromDefault =
      .ok card) : Nonempty (CardReads strOf pinned name var current fromDefault card) := by
  obtain ⟨help, hhelp, h⟩ := exists_of_bind_ok h
  obtain ⟨offSpec, -, h⟩ := exists_of_bind_ok h
  obtain ⟨widget, hwidget, h⟩ := exists_of_bind_ok h
  obtain rfl := Except.ok.inj h
  obtain ⟨shape, hshape, hwidget⟩ := exists_of_bind_ok hwidget
  obtain rfl := Except.ok.inj hwidget
  refine ⟨shape, hshape, fun rest => ?_⟩
  have hfront : Quiet (.tag [] false "div".toList
      [valued "class" "setting-card".toList, valued "data-var" name] ::
        (textElement "label" [valued "class" "setting-label".toList,
            valued "for" ("field-".toList ++ name)] (plain strOf (labelOf name var)) ++
          ((plainHelp strOf var ++ help) ++ (if offSpec then badge current else [])))) := by
    unfold Quiet
    rw [List.forall_mem_cons]
    refine ⟨silent_tag (.inr (by decide)), quiet_append (quiet_text (by decide) _ _)
      (quiet_append (quiet_append quiet_plainHelp (quiet_markdownHelp hinert hhelp)) ?_)⟩
    cases offSpec with
    | true => exact quiet_badge current
    | false => exact fun p hp => by cases hp
  have hback : Quiet (revealPieces name var ++ [.tag [] true "div".toList []]) :=
    quiet_append (quiet_reveal name var) fun p hp => (List.mem_singleton.mp hp) ▸ silent_end
  have hcard : cardPieces strOf name var current (plainHelp strOf var ++ help) offSpec
      ((shape.skeleton strOf var current name).fill name (idAttributes name fromDefault)) =
        (.tag [] false "div".toList
          [valued "class" "setting-card".toList, valued "data-var" name] ::
            (textElement "label" [valued "class" "setting-label".toList,
                valued "for" ("field-".toList ++ name)] (plain strOf (labelOf name var)) ++
              ((plainHelp strOf var ++ help) ++ (if offSpec then badge current else [])))) ++
          ((shape.skeleton strOf var current name).fill name (idAttributes name fromDefault) ++
            (revealPieces name var ++ [.tag [] true "div".toList []])) := by
    simp [cardPieces]
  have hreads := @reads_shape strOf pinned name var current fromDefault shape
  rw [hcard, List.flatMap_append, List.append_assoc, controlsFrom_quiet hfront,
    List.flatMap_append, List.append_assoc, hreads, controlsFrom_quiet hback]

-- The groups of controls of all the cards, one for each variable.
theorem cards_read {values : Text → Option Resolved} {vars : List (Text × Var)}
    {cards : List (List Piece)} (hinert : Inert renderMarkdownBlock)
    (h : vars.mapM (cardOf strOf fullmatch renderMarkdownBlock app hash values) = .ok cards) :
    ∃ fields groups, vars.mapM (pageField strOf pinned values) = .ok fields ∧
      (∀ rest, controlsFrom pinned (cards.flatten.flatMap Piece.tokens ++ rest) =
        groups.flatten ++ controlsFrom pinned rest) ∧
      groups.map (fun group => numbered [] (settle group)) = fields.map Field.elements ∧
      fields.map Field.name = vars.map (fun entry => Html.shown entry.1) ∧
      List.Forall₂ (fun group entry => ∀ el ∈ group, el.name = Html.shown entry.1) groups vars := by
  induction vars generalizing cards with
  | nil =>
      obtain rfl := Except.ok.inj h
      exact ⟨[], [], rfl, fun _ => rfl, rfl, rfl, .nil⟩
  | cons entry vars ih =>
      rw [List.mapM_cons] at h
      obtain ⟨card, hcard, h⟩ := exists_of_bind_ok h
      obtain ⟨rest, hrest, h⟩ := exists_of_bind_ok h
      obtain rfl := Except.ok.inj h
      obtain ⟨fields, groups, hfields, hreads, hgroups, hnames, hapart⟩ := ih hrest
      obtain ⟨shape, hshape, hcontrols⟩ := @cardMarkup_reads strOf fullmatch renderMarkdownBlock
        pinned app hash _ _ _ _ _ hinert hcard
      refine ⟨fieldOf strOf pinned entry.1 entry.2 ((values entry.1).bind Resolved.value)
        ((values entry.1).any Resolved.fromDefault) shape :: fields, readElements strOf pinned
          entry.1 entry.2 ((values entry.1).bind Resolved.value)
            ((values entry.1).any Resolved.fromDefault) shape :: groups, ?_, ?_, ?_, ?_, ?_⟩
      · have hfield : pageField strOf pinned values entry = .ok (fieldOf strOf pinned entry.1
            entry.2 ((values entry.1).bind Resolved.value)
              ((values entry.1).any Resolved.fromDefault) shape) := by
          unfold pageField
          dsimp only
          rw [hshape]
          rfl
        rw [List.mapM_cons, hfields, hfield]
        rfl
      · intro more
        rw [List.flatten_cons, List.flatMap_append, List.append_assoc, hcontrols, hreads,
          List.flatten_cons, List.append_assoc]
      · rw [List.map_cons, List.map_cons, hgroups, settled_field]
      · rw [List.map_cons, List.map_cons, hnames]
        rfl
      · exact .cons (readElements_name shape) hapart

end Cards

section Page

variable {strOf : Value → Text} {fullmatch : Value → Text → Except Exn Bool}
variable {renderMarkdownBlock : Text → Text → Text → Value → Except Exn Text}
variable {publishHash : Var → Except Exn Text} {pinned : List (Text × Text) → Text}
variable {app device : Text} {catalog : Var} {values : Text → Option Resolved}

theorem exists_entry {groups : List (List Element)} {vars : List (Text × Var)}
    (h : List.Forall₂ (fun group entry => ∀ el ∈ group, el.name = Html.shown entry.1) groups vars)
    {group : List Element} (hgroup : group ∈ groups) :
    ∃ entry ∈ vars, ∀ el ∈ group, el.name = Html.shown entry.1 := by
  induction h with
  | nil => cases hgroup
  | @cons first entry groups vars hfirst hrest ih =>
      rcases List.mem_cons.mp hgroup with rfl | hgroup
      · exact ⟨entry, List.mem_cons_self, hfirst⟩
      · obtain ⟨other, hother, hnames⟩ := ih hgroup
        exact ⟨other, List.mem_cons_of_mem entry hother, hnames⟩

theorem pairwise_apart {groups : List (List Element)} {vars : List (Text × Var)}
    (h : List.Forall₂ (fun group entry => ∀ el ∈ group, el.name = Html.shown entry.1) groups vars)
    (hnames : (vars.map fun entry => Html.shown entry.1).Nodup) :
    groups.Pairwise fun a b => ∀ el ∈ a, ∀ other ∈ b, other.name ≠ el.name := by
  induction h with
  | nil => exact .nil
  | @cons group entry groups vars hgroup hrest ih =>
      rw [List.map_cons, List.nodup_cons] at hnames
      refine .cons ?_ (ih hnames.2)
      intro b hb el hel other hother
      obtain ⟨entry', hentry', hb⟩ := exists_entry hrest hb
      rw [hgroup el hel, hb other hother]
      exact fun heq => hnames.1 (List.mem_map.mpr ⟨entry', hentry', heq⟩)

-- No two variables on the page have a name that the browser takes for the same.
def NamesApart (catalog : Var) : Prop :=
  ∀ vars, customerFacing catalog = .ok vars →
    (vars.map fun entry => Html.shown entry.1).Nodup

theorem controls_pieces {pieces : List Piece} (hinert : Inert renderMarkdownBlock)
    (hnames : NamesApart catalog)
    (h : pageMarkup strOf fullmatch renderMarkdownBlock publishHash app device catalog values =
      .ok pieces) :
    ∃ form : Form, pageFields strOf pinned catalog values = .ok form.fields ∧
      documentElements pinned (pieces.flatMap Piece.tokens) = form.elements := by
  obtain ⟨hash, chrome, header, vars, cards, footer, hchrome, hheader, hvars, hcards, hfooter, rfl⟩ :=
    (pageMarkup_parts h).some
  obtain ⟨fields, groups, hfields, hreads, hgroups, hshown, hapart⟩ :=
    @cards_read strOf fullmatch renderMarkdownBlock pinned app hash values vars
      cards hinert hcards
  have hnodup := hnames vars hvars
  refine ⟨⟨fields, hshown ▸ hnodup⟩, ?_, ?_⟩
  · unfold pageFields
    rw [hvars]
    exact hfields
  · have hfront : Quiet (.tag [] false "section".toList [valued "class" "catalog-app".toList] ::
        (chrome ++ (header ++ [.tag [] false "form".toList [valued "method"
          "post".toList, valued "action" ("/app/".toList ++ app ++ "/".toList ++ device),
            valued "class" "catalog-form".toList]]))) := by
      unfold Quiet
      rw [List.forall_mem_cons]
      refine ⟨silent_tag (.inr (by decide)), quiet_append (quiet_chrome hchrome)
        (quiet_append (quiet_block hinert hheader) ?_)⟩
      exact fun p hp => (List.mem_singleton.mp hp) ▸ silent_tag (.inr (by decide))
    have hback : Quiet (.tag [] false "div".toList [valued "class" "catalog-form-actions".toList] ::
        (textElement "button" [valued "type" "submit".toList, valued "class" "btn-primary".toList]
          "Save".toList ++ (.tag [] true "div".toList [] :: .tag [] true "form".toList [] ::
            (footer ++ [.tag [] true "section".toList []])))) := by
      unfold Quiet
      rw [List.forall_mem_cons]
      refine ⟨silent_tag (.inr (by decide)), quiet_append (quiet_text (by decide) _ _) ?_⟩
      rw [Quiet, List.forall_mem_cons, List.forall_mem_cons]
      refine ⟨silent_end, silent_end, quiet_append (quiet_block hinert hfooter) ?_⟩
      exact fun p hp => (List.mem_singleton.mp hp) ▸ silent_end
    have hsplit : (.tag [] false "section".toList [valued "class" "catalog-app".toList] ::
        (chrome ++ (header ++ (formPieces app device cards ++
          (footer ++ [.tag [] true "section".toList []])))) : List Piece) =
        (.tag [] false "section".toList [valued "class" "catalog-app".toList] :: (chrome ++ (header ++ [.tag [] false "form".toList
          [valued "method" "post".toList, valued "action" ("/app/".toList ++ app ++ "/".toList ++
            device), valued "class" "catalog-form".toList]]))) ++ (cards.flatten ++
        (.tag [] false "div".toList [valued "class" "catalog-form-actions".toList] ::
          (textElement "button" [valued "type" "submit".toList, valued "class"
            "btn-primary".toList] "Save".toList ++ (.tag [] true "div".toList [] ::
              .tag [] true "form".toList [] :: (footer ++
                [.tag [] true "section".toList []]))))) := by
      simp [formPieces]
    have hsilence := @controlsFrom_quiet pinned _ hback []
    rw [List.append_nil] at hsilence
    unfold documentElements
    rw [hsplit, List.flatMap_append, controlsFrom_quiet hfront, List.flatMap_append, hreads,
      hsilence, controlsFrom, List.append_nil, numbered_settle_flatten (pairwise_apart hapart
        hnodup), hgroups]
    exact (List.flatMap_def ..).symm

-- The page as a browser has it after the load is a form with one field for each variable of the
-- catalog that has a label, in their order, and with what the field is meant to hold.
theorem renderPage_loads (hmarkdown : Sanitizing renderMarkdownBlock)
    (hinert : Inert renderMarkdownBlock) (hnames : NamesApart catalog) {html : Text}
    (h : renderPage strOf fullmatch renderMarkdownBlock publishHash app device catalog values =
      .ok html) :
    ∃ form : Form, pageFields strOf pinned catalog values = .ok form.fields ∧
      (Html.tokenize html).map (documentElements pinned) = some form.elements := by
  rw [renderPage_eq] at h
  cases hpieces : pageMarkup strOf fullmatch renderMarkdownBlock publishHash app device catalog
      values with
  | error exn =>
      rw [hpieces] at h
      cases h
  | ok pieces =>
      rw [hpieces] at h
      obtain rfl := Except.ok.inj h
      obtain ⟨form, hform, helements⟩ := @controls_pieces strOf fullmatch renderMarkdownBlock
        publishHash pinned app device catalog values pieces hinert hnames hpieces
      refine ⟨form, hform, ?_⟩
      rw [Html.tokenize_pieces (pageMarkup_wellFormed hmarkdown hpieces), Option.map_some,
        helements]

end Page

section Small

theorem smallBlock_inert : Inert smallBlock := by
  intro app hash blockId source markup h
  obtain rfl := Except.ok.inj h
  have htokens : readTokens "<p>Hi</p>\n".toList = [.tag ⟨false, "p".toList, []⟩, .char 'H',
      .char 'i', .tag ⟨true, "p".toList, []⟩, .char '\n'] := by
    decide +kernel
  rw [htokens]
  intro tag htag
  simp only [List.mem_cons, Token.tag.injEq, reduceCtorEq, false_or, List.not_mem_nil,
    or_false] at htag
  rcases htag with rfl | rfl
  · exact .inr (by decide)
  · exact .inl rfl

theorem renderSmall_loads :
    ∃ html, ∃ form : Form, renderSmall = .ok html ∧
      (Html.tokenize html).map (documentElements fun _ => []) = some form.elements := by
  have hnames : NamesApart smallCatalog := by
    intro vars h
    obtain rfl := Except.ok.inj h
    exact List.nodup_singleton _
  obtain ⟨html, h⟩ := renderSmall_ok
  obtain ⟨form, -, helements⟩ := renderPage_loads smallBlock_sanitizing smallBlock_inert hnames h
  exact ⟨html, form, h, helements⟩

end Small

end Stra2us.Page.Markup
