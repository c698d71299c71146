import Stra2us.Page.Card
import Stra2us.Page.MarkdownCache

namespace Stra2us.Page.Markup

open Foundation Server
open Foundation.Html (Piece)

section Source

variable (strOf : Value → Text) (fullmatch : Value → Text → Except Exn Bool)
-- The markup of a block of Markdown of an app, under the hash of its catalog.
variable (renderMarkdownBlock : Text → Text → Text → Value → Except Exn Text)
variable (publishHash : Var → Except Exn Text)

-- `value or {}`
def orEmpty (value : Option Value) : Value :=
  match value with
  | some value => if value.truthy then value else .dict []
  | none => .dict []

def truthyField (mapping : Value) (name : String) : Except Exn (Option Value) := do
  match ← getField mapping name.toList with
  | some value => .ok (if value.truthy then some value else none)
  | none => .ok none

def assetPath (app : Text) (asset : Text) : Text :=
  "/app/".toList ++ app ++ "/_assets/".toList ++ asset

def renderLogo (app : Text) (theme : Value) : Except Exn Text := do
  match ← truthyField theme "logo_asset" with
  | some logo =>
      let alt := ((← truthyField theme "logo_alt").or (← truthyField theme "product_name")).getD
        (.str [])
      .ok ("<img class=\"catalog-logo\" ".toList ++
        attr "src" (assetPath (Html.escape app) (esc strOf logo)) ++ " ".toList ++
          attr "alt" (esc strOf alt) ++ ">".toList)
  | none => .ok []

def renderProductName (theme : Value) : Except Exn Text := do
  match ← truthyField theme "product_name" with
  | some product =>
      .ok ("<h1 class=\"catalog-product-name\">".toList ++ esc strOf product ++ "</h1>".toList)
  | none => .ok []

def renderChrome (app : Text) (theme : Value) : Except Exn Text := do
  let logo ← renderLogo strOf app theme
  let product ← renderProductName strOf theme
  .ok ("<header class=\"catalog-app-chrome\">".toList ++ logo ++ product ++ "</header>".toList)

-- The block above or below the form.
def renderBlockOf (app hash : Text) (ui : Value) (field blockId css : String) : Except Exn Text := do
  match ← truthyField ui field with
  | some source => do
      let rendered ← renderMarkdownBlock app hash blockId.toList source
      .ok ("<div class=\"".toList ++ css.toList ++ "\">".toList ++ rendered ++ "</div>".toList)
  | none => .ok []

-- The variables with a label, in the order of the catalog.
def customerFacing (catalog : Var) : Except Exn (List (Text × Var)) :=
  match catalogVars (some catalog) with
  | .dict pairs => .ok (customerFacingVars (.dict pairs))
  | _ => .error (.python "AttributeError".toList)

def renderCard (app hash : Text) (values : Text → Option Resolved) (entry : Text × Var) :
    Except Exn Text :=
  let resolved := values entry.1
  renderSettingCard strOf fullmatch (renderMarkdownBlock app hash) entry.1 entry.2
    (resolved.bind Resolved.value) (resolved.any Resolved.fromDefault)

def renderPage (app device : Text) (catalog : Var) (values : Text → Option Resolved) :
    Except Exn Text := do
  let hash ← publishHash catalog
  let ui := orEmpty (Value.lookup catalog "ui".toList)
  let chrome ← renderChrome strOf app (orEmpty (Value.lookup catalog "theme".toList))
  let header ← renderBlockOf renderMarkdownBlock app hash ui "header_markdown" "header"
    "catalog-header-md"
  let vars ← customerFacing catalog
  let cards ← vars.mapM (renderCard strOf fullmatch renderMarkdownBlock app hash values)
  let footer ← renderBlockOf renderMarkdownBlock app hash ui "footer_markdown" "footer"
    "catalog-footer-md"
  .ok ("<section class=\"catalog-app\">".toList ++ chrome ++ header ++
    "<form method=\"post\" ".toList ++
      attr "action" ("/app/".toList ++ Html.escape app ++ "/".toList ++ Html.escape device) ++
        " class=\"catalog-form\">".toList ++ cards.flatten ++
          "<div class=\"catalog-form-actions\">".toList ++
            "<button type=\"submit\" class=\"btn-primary\">Save</button>".toList ++
              "</div>".toList ++ "</form>".toList ++ footer ++ "</section>".toList)

end Source

section Markup

variable (strOf : Value → Text) (fullmatch : Value → Text → Except Exn Bool)
variable (renderMarkdownBlock : Text → Text → Text → Value → Except Exn Text)
variable (publishHash : Var → Except Exn Text)

def logoMarkup (app : Text) (theme : Value) : Except Exn (List Piece) := do
  match ← truthyField theme "logo_asset" with
  | some logo =>
      let alt := ((← truthyField theme "logo_alt").or (← truthyField theme "product_name")).getD
        (.str [])
      .ok [.tag [] false "img".toList [valued "class" "catalog-logo".toList,
        valued "src" (assetPath app (plain strOf logo)), valued "alt" (plain strOf alt)]]
  | none => .ok []

def productMarkup (theme : Value) : Except Exn (List Piece) := do
  match ← truthyField theme "product_name" with
  | some product =>
      .ok (textElement "h1" [valued "class" "catalog-product-name".toList] (plain strOf product))
  | none => .ok []

def chromeMarkup (app : Text) (theme : Value) : Except Exn (List Piece) := do
  let logo ← logoMarkup strOf app theme
  let product ← productMarkup strOf theme
  .ok (.tag [] false "header".toList [valued "class" "catalog-app-chrome".toList] ::
    (logo ++ (product ++ [.tag [] true "header".toList []])))

def blockMarkup (app hash : Text) (ui : Value) (field blockId css : String) :
    Except Exn (List Piece) := do
  match ← truthyField ui field with
  | some source => do
      let rendered ← renderMarkdownBlock app hash blockId.toList source
      .ok (rawElement "div" [valued "class" css.toList] rendered)
  | none => .ok []

def cardOf (app hash : Text) (values : Text → Option Resolved) (entry : Text × Var) :
    Except Exn (List Piece) :=
  let resolved := values entry.1
  cardMarkup strOf fullmatch (renderMarkdownBlock app hash) entry.1 entry.2
    (resolved.bind Resolved.value) (resolved.any Resolved.fromDefault)

def formPieces (app device : Text) (cards : List (List Piece)) : List Piece :=
  .tag [] false "form".toList [valued "method" "post".toList,
      valued "action" ("/app/".toList ++ app ++ "/".toList ++ device),
      valued "class" "catalog-form".toList] ::
    (cards.flatten ++
      (.tag [] false "div".toList [valued "class" "catalog-form-actions".toList] ::
        (textElement "button" [valued "type" "submit".toList, valued "class" "btn-primary".toList]
          "Save".toList ++ [.tag [] true "div".toList [], .tag [] true "form".toList []])))

-- The tree of the page's settings.
def pageMarkup (app device : Text) (catalog : Var) (values : Text → Option Resolved) :
    Except Exn (List Piece) := do
  let hash ← publishHash catalog
  let ui := orEmpty (Value.lookup catalog "ui".toList)
  let chrome ← chromeMarkup strOf app (orEmpty (Value.lookup catalog "theme".toList))
  let header ← blockMarkup renderMarkdownBlock app hash ui "header_markdown" "header"
    "catalog-header-md"
  let vars ← customerFacing catalog
  let cards ← vars.mapM (cardOf strOf fullmatch renderMarkdownBlock app hash values)
  let footer ← blockMarkup renderMarkdownBlock app hash ui "footer_markdown" "footer"
    "catalog-footer-md"
  .ok (.tag [] false "section".toList [valued "class" "catalog-app".toList] ::
    (chrome ++ (header ++ (formPieces app device cards ++
      (footer ++ [.tag [] true "section".toList []])))))

end Markup

section Written

variable {strOf : Value → Text} {fullmatch : Value → Text → Except Exn Bool}
variable {renderMarkdownBlock : Text → Text → Text → Value → Except Exn Text}
variable {publishHash : Var → Except Exn Text}
variable {app device hash : Text} {theme ui : Value}

theorem renderLogo_eq :
    renderLogo strOf app theme = (logoMarkup strOf app theme).map (·.flatMap Piece.write) := by
  have happ : Html.escape "/app/".toList = "/app/".toList := by decide
  have hassets : Html.escape "/_assets/".toList = "/_assets/".toList := by decide
  unfold renderLogo logoMarkup
  cases truthyField theme "logo_asset" with
  | error exn => rfl
  | ok logo =>
      cases logo with
      | none => rfl
      | some logo =>
          cases truthyField theme "logo_alt" with
          | error exn => rfl
          | ok alt =>
              cases truthyField theme "product_name" with
              | error exn => rfl
              | ok product =>
                  refine congrArg Except.ok ?_
                  have hpath : assetPath (Html.escape app) (esc strOf logo) =
                      Html.escape (assetPath app (plain strOf logo)) := by
                    unfold assetPath
                    rw [escape_append, escape_append, escape_append, happ, hassets]
                    rfl
                  dsimp only
                  rw [hpath]
                  simp [Piece.write, writeTag_false, writeAttribute_valued, attr, Html.escape,
                    Html.escapeChar, esc]

theorem renderProductName_eq :
    renderProductName strOf theme = (productMarkup strOf theme).map (·.flatMap Piece.write) := by
  unfold renderProductName productMarkup
  cases truthyField theme "product_name" with
  | error exn => rfl
  | ok product =>
      cases product with
      | none => rfl
      | some product =>
          refine congrArg Except.ok ?_
          simp [textElement, Piece.write, writeTag_false, writeTag_true, writeAttribute_valued,
            attr, Html.escape, Html.escapeChar, esc]

theorem renderChrome_eq :
    renderChrome strOf app theme = (chromeMarkup strOf app theme).map (·.flatMap Piece.write) := by
  unfold renderChrome chromeMarkup
  rw [renderLogo_eq, renderProductName_eq]
  cases logoMarkup strOf app theme with
  | error exn => rfl
  | ok logo =>
      cases productMarkup strOf theme with
      | error exn => rfl
      | ok product =>
          refine congrArg Except.ok ?_
          simp [Piece.write, writeTag_false, writeTag_true, writeAttribute_valued, attr,
            Html.escape, Html.escapeChar]

theorem renderBlockOf_eq {field blockId css : String} (hcss : Html.escape css.toList = css.toList) :
    renderBlockOf renderMarkdownBlock app hash ui field blockId css =
      (blockMarkup renderMarkdownBlock app hash ui field blockId css).map
        (·.flatMap Piece.write) := by
  unfold renderBlockOf blockMarkup
  cases truthyField ui field with
  | error exn => rfl
  | ok source =>
      cases source with
      | none => rfl
      | some source =>
          simp only [bind, Except.bind]
          cases renderMarkdownBlock app hash blockId.toList source with
          | error exn => rfl
          | ok rendered =>
              refine congrArg Except.ok ?_
              simp [rawElement, Piece.write, writeTag_false, writeTag_true, writeAttribute_valued,
                attr, hcss]
              simp [Html.escape]

theorem mapM_exceptMap {ε α β γ : Type} (f : α → Except ε β) (g : β → γ) (items : List α) :
    items.mapM (fun a => (f a).map g) = (items.mapM f).map (List.map g) := by
  induction items with
  | nil => rfl
  | cons a items ih =>
      rw [List.mapM_cons, List.mapM_cons, ih]
      cases f a with
      | error e => rfl
      | ok b =>
          cases items.mapM f with
          | error e => rfl
          | ok bs => rfl

theorem renderCard_eq (values : Text → Option Resolved) (entry : Text × Var) :
    renderCard strOf fullmatch renderMarkdownBlock app hash values entry =
      (cardOf strOf fullmatch renderMarkdownBlock app hash values entry).map
        (·.flatMap Piece.write) :=
  renderSettingCard_eq

theorem write_formPieces (cards : List (List Piece)) :
    (formPieces app device cards).flatMap Piece.write =
      "<form method=\"post\" ".toList ++
        attr "action" ("/app/".toList ++ Html.escape app ++ "/".toList ++ Html.escape device) ++
          " class=\"catalog-form\">".toList ++ (cards.map (·.flatMap Piece.write)).flatten ++
            "<div class=\"catalog-form-actions\">".toList ++
              "<button type=\"submit\" class=\"btn-primary\">Save</button>".toList ++
                "</div>".toList ++ "</form>".toList := by
  have hcards : cards.flatten.flatMap Piece.write =
      (cards.map (·.flatMap Piece.write)).flatten := by
    induction cards with
    | nil => rfl
    | cons card cards ih => rw [List.flatten_cons, List.flatMap_append, ih]; rfl
  unfold formPieces
  rw [List.flatMap_cons, List.flatMap_append, hcards]
  simp [textElement, Piece.write, writeTag_false, writeTag_true, writeAttribute_valued, attr,
    Html.escape, Html.escapeChar]

-- The text of the page's settings is their tree, written out.
theorem renderPage_eq (catalog : Var) (values : Text → Option Resolved) :
    renderPage strOf fullmatch renderMarkdownBlock publishHash app device catalog values =
      (pageMarkup strOf fullmatch renderMarkdownBlock publishHash app device catalog values).map
        (·.flatMap Piece.write) := by
  unfold renderPage pageMarkup
  simp only [renderChrome_eq]
  cases publishHash catalog with
  | error exn => rfl
  | ok hash =>
      have hheader := @renderBlockOf_eq renderMarkdownBlock app hash
        (orEmpty (Value.lookup catalog "ui".toList)) "header_markdown" "header"
        "catalog-header-md" (by decide)
      have hfooter := @renderBlockOf_eq renderMarkdownBlock app hash
        (orEmpty (Value.lookup catalog "ui".toList)) "footer_markdown" "footer"
        "catalog-footer-md" (by decide)
      simp only [bind, Except.bind]
      rw [hheader, hfooter]
      cases chromeMarkup strOf app (orEmpty (Value.lookup catalog "theme".toList)) with
      | error exn => rfl
      | ok chrome =>
          cases blockMarkup renderMarkdownBlock app hash (orEmpty (Value.lookup catalog "ui".toList))
              "header_markdown" "header" "catalog-header-md" with
          | error exn => rfl
          | ok header =>
              cases customerFacing catalog with
              | error exn => rfl
              | ok vars =>
                  have hcards := mapM_exceptMap
                    (cardOf strOf fullmatch renderMarkdownBlock app hash values)
                    (·.flatMap Piece.write) vars
                  simp only [← renderCard_eq] at hcards
                  have hcards' : vars.mapM (renderCard strOf fullmatch renderMarkdownBlock app hash
                      values) = _ := hcards
                  simp only [Except.map]
                  rw [hcards']
                  cases vars.mapM (cardOf strOf fullmatch renderMarkdownBlock app hash values) with
                  | error exn => rfl
                  | ok cards =>
                      simp only [Except.map]
                      cases blockMarkup renderMarkdownBlock app hash
                          (orEmpty (Value.lookup catalog "ui".toList)) "footer_markdown" "footer"
                          "catalog-footer-md" with
                      | error exn => rfl
                      | ok footer =>
                          refine congrArg Except.ok ?_
                          have hopen : (Piece.tag [] false "section".toList
                              [valued "class" "catalog-app".toList]).write =
                                "<section class=\"catalog-app\">".toList := by decide
                          have hclose : (Piece.tag [] true "section".toList []).write =
                              "</section>".toList := rfl
                          simp only [List.flatMap_cons, List.flatMap_append, List.flatMap_nil,
                            write_formPieces, hopen, hclose, List.append_assoc, List.append_nil]

end Written

section Read

variable {strOf : Value → Text} {fullmatch : Value → Text → Except Exn Bool}
variable {renderMarkdownBlock : Text → Text → Text → Value → Except Exn Text}
variable {publishHash : Var → Except Exn Text}
variable {app device hash : Text} {theme ui : Value}

-- Markup that is read on its own and leaves nothing open.
def Readable (markup : Text) : Prop :=
  (Html.tokenize markup).isSome

-- What the sanitizer of Markdown gives is such markup.
def Sanitizing (renderMarkdownBlock : Text → Text → Text → Value → Except Exn Text) : Prop :=
  ∀ app hash blockId source markup,
    renderMarkdownBlock app hash blockId source = .ok markup → Readable markup

theorem fragment_readTokens {markup : Text} (h : Readable markup) :
    Html.Fragment markup (readTokens markup) := by
  obtain ⟨tokens, htokens⟩ := Option.isSome_iff_exists.mp h
  unfold Html.Fragment readTokens
  rw [htokens]
  rfl

theorem wellFormed_text {tag : String} {attributes : Attributes} (names : List Text)
    (htag : plainTag tag.toList) (h : (attributes.map Prod.fst).Sublist names)
    (hnames : GoodLabels names) (text : Text) :
    ∀ p ∈ textElement tag attributes text, p.WellFormed := by
  unfold textElement
  rw [List.forall_mem_cons, List.forall_mem_singleton]
  exact ⟨wellFormed_tag names false htag h hnames, wellFormed_end htag⟩

theorem wellFormed_raw {tag : String} {attributes : Attributes} (names : List Text)
    (htag : plainTag tag.toList) (h : (attributes.map Prod.fst).Sublist names)
    (hnames : GoodLabels names) {markup : Text} (hmarkup : Readable markup) :
    ∀ p ∈ rawElement tag attributes markup, p.WellFormed := by
  unfold rawElement
  rw [List.forall_mem_cons, List.forall_mem_singleton]
  refine ⟨wellFormed_tag names false htag h hnames, ?_, fragment_readTokens hmarkup⟩
  unfold plainTag at htag
  simp only [Bool.and_eq_true] at htag
  exact htag.1.1

theorem plainHelp_wellFormed {var : Var} : ∀ p ∈ plainHelp strOf var, p.WellFormed := by
  unfold plainHelp
  split
  · split
    · exact wellFormed_text (labels ["class"]) (by decide) (List.Sublist.refl _) (by decide) _
    · simp
  · simp

theorem markdownHelp_wellFormed {name : Text} {var : Var} {help : List Piece}
    (hmarkdown : Sanitizing renderMarkdownBlock)
    (h : markdownHelp (renderMarkdownBlock app hash) name var = .ok help) :
    ∀ p ∈ help, p.WellFormed := by
  unfold markdownHelp at h
  split at h
  · split at h
    · rename_i source _ _
      cases hrendered : renderMarkdownBlock app hash ("help.".toList ++ name) source with
      | error exn =>
          rw [hrendered] at h
          cases h
      | ok rendered =>
          rw [hrendered] at h
          obtain rfl := Except.ok.inj h
          exact wellFormed_raw (labels ["class"]) (by decide) (List.Sublist.refl _) (by decide)
            (hmarkdown _ _ _ _ _ hrendered)
    · obtain rfl := Except.ok.inj h
      simp
  · obtain rfl := Except.ok.inj h
    simp

theorem badge_wellFormed (current : Option Text) : ∀ p ∈ badge current, p.WellFormed := by
  have hnote : badgeNote.WellFormed :=
    ⟨by decide, fragment_readTokens (by unfold Readable; decide +kernel)⟩
  unfold badge
  rw [List.forall_mem_cons]
  refine ⟨wellFormed_tag (labels ["class", "role"]) false (by decide) (List.Sublist.refl _)
    (by decide), ?_⟩
  intro p hp
  rcases List.mem_append.mp hp with hp | hp
  · exact wellFormed_text [] (by decide) (List.Sublist.refl _) (by decide) _ p hp
  · rw [List.mem_singleton.mp hp]
    exact hnote

theorem revealPieces_wellFormed (name : Text) (var : Var) :
    ∀ p ∈ revealPieces name var, p.WellFormed := by
  unfold revealPieces
  split
  · exact wellFormed_text (labels ["type", "class", "data-var"]) (by decide) (List.Sublist.refl _)
      (by decide) _
  · simp

theorem extra_idAttributes (name : Text) (fromDefault : Bool) :
    Extra (idAttributes name fromDefault) := by
  cases fromDefault with
  | true => exact List.Sublist.refl _
  | false => exact List.Sublist.cons_cons _ (List.nil_sublist _)

theorem cardMarkup_wellFormed {name : Text} {var : Var} {current : Option Text}
    {fromDefault : Bool} {card : List Piece} (hmarkdown : Sanitizing renderMarkdownBlock)
    (h : cardMarkup strOf fullmatch (renderMarkdownBlock app hash) name var current fromDefault =
      .ok card) : ∀ p ∈ card, p.WellFormed := by
  obtain ⟨help, hhelp, h⟩ := exists_of_bind_ok h
  obtain ⟨offSpec, -, h⟩ := exists_of_bind_ok h
  obtain ⟨widget, hwidget, h⟩ := exists_of_bind_ok h
  obtain rfl := Except.ok.inj h
  unfold cardPieces
  simp only [List.forall_mem_cons, List.forall_mem_append]
  refine ⟨?_, ?_, ⟨plainHelp_wellFormed, markdownHelp_wellFormed hmarkdown hhelp⟩, ?_, ?_,
    revealPieces_wellFormed name var, wellFormed_end (by decide), by simp⟩
  · exact wellFormed_tag (labels ["class", "data-var"]) false (by decide) (List.Sublist.refl _)
      (by decide)
  · exact wellFormed_text (labels ["class", "for"]) (by decide) (List.Sublist.refl _)
      (by decide) _
  · cases offSpec with
    | true => exact badge_wellFormed current
    | false => simp
  · exact (widgetMarkup_sound hwidget).wellFormed.fill name (extra_idAttributes _ _)

theorem logoMarkup_wellFormed {logo : List Piece} (h : logoMarkup strOf app theme = .ok logo) :
    ∀ p ∈ logo, p.WellFormed := by
  obtain ⟨asset, -, h⟩ := exists_of_bind_ok h
  cases asset with
  | none =>
      obtain rfl := Except.ok.inj h
      simp
  | some asset =>
      obtain ⟨alt, -, h⟩ := exists_of_bind_ok h
      obtain ⟨product, -, h⟩ := exists_of_bind_ok h
      obtain rfl := Except.ok.inj h
      rw [List.forall_mem_singleton]
      exact wellFormed_tag (labels ["class", "src", "alt"]) false (by decide)
        (List.Sublist.refl _) (by decide)

theorem productMarkup_wellFormed {product : List Piece}
    (h : productMarkup strOf theme = .ok product) : ∀ p ∈ product, p.WellFormed := by
  obtain ⟨name, -, h⟩ := exists_of_bind_ok h
  cases name with
  | none =>
      obtain rfl := Except.ok.inj h
      simp
  | some name =>
      obtain rfl := Except.ok.inj h
      exact wellFormed_text (labels ["class"]) (by decide) (List.Sublist.refl _) (by decide) _

theorem chromeMarkup_wellFormed {chrome : List Piece}
    (h : chromeMarkup strOf app theme = .ok chrome) : ∀ p ∈ chrome, p.WellFormed := by
  obtain ⟨logo, hlogo, h⟩ := exists_of_bind_ok h
  obtain ⟨product, hproduct, h⟩ := exists_of_bind_ok h
  obtain rfl := Except.ok.inj h
  simp only [List.forall_mem_cons, List.forall_mem_append]
  refine ⟨?_, logoMarkup_wellFormed hlogo, productMarkup_wellFormed hproduct,
    wellFormed_end (by decide), by simp⟩
  exact wellFormed_tag (labels ["class"]) false (by decide) (List.Sublist.refl _) (by decide)

theorem blockMarkup_wellFormed {field blockId css : String} {block : List Piece}
    (hmarkdown : Sanitizing renderMarkdownBlock)
    (h : blockMarkup renderMarkdownBlock app hash ui field blockId css = .ok block) :
    ∀ p ∈ block, p.WellFormed := by
  obtain ⟨source, -, h⟩ := exists_of_bind_ok h
  cases source with
  | none =>
      obtain rfl := Except.ok.inj h
      simp
  | some source =>
      obtain ⟨rendered, hrendered, h⟩ := exists_of_bind_ok h
      obtain rfl := Except.ok.inj h
      exact wellFormed_raw (labels ["class"]) (by decide) (List.Sublist.refl _) (by decide)
        (hmarkdown _ _ _ _ _ hrendered)

theorem mem_mapM_ok {α β : Type} {f : α → Except Exn β} {items : List α} {results : List β}
    (h : items.mapM f = .ok results) {b : β} (hb : b ∈ results) : ∃ a ∈ items, f a = .ok b := by
  induction items generalizing results with
  | nil =>
      obtain rfl := Except.ok.inj h
      cases hb
  | cons a items ih =>
      rw [List.mapM_cons] at h
      obtain ⟨first, hfirst, h⟩ := exists_of_bind_ok h
      obtain ⟨rest, hrest, h⟩ := exists_of_bind_ok h
      obtain rfl := Except.ok.inj h
      rcases List.mem_cons.mp hb with rfl | hb
      · exact ⟨a, List.mem_cons_self, hfirst⟩
      · obtain ⟨other, hother, hf⟩ := ih hrest hb
        exact ⟨other, List.mem_cons_of_mem a hother, hf⟩

theorem formPieces_wellFormed {cards : List (List Piece)}
    (h : ∀ card ∈ cards, ∀ p ∈ card, p.WellFormed) :
    ∀ p ∈ formPieces app device cards, p.WellFormed := by
  unfold formPieces
  simp only [List.forall_mem_cons, List.forall_mem_append]
  refine ⟨?_, ?_, ?_, ?_, wellFormed_end (by decide), wellFormed_end (by decide), by simp⟩
  · exact wellFormed_tag (labels ["method", "action", "class"]) false (by decide)
      (List.Sublist.refl _) (by decide)
  · intro p hp
    obtain ⟨card, hcard, hp⟩ := List.mem_flatten.mp hp
    exact h card hcard p hp
  · exact wellFormed_tag (labels ["class"]) false (by decide) (List.Sublist.refl _) (by decide)
  · exact wellFormed_text (labels ["type", "class"]) (by decide) (List.Sublist.refl _)
      (by decide) _

-- What goes into the tree of a page that comes out.
structure PageParts (strOf : Value → Text) (fullmatch : Value → Text → Except Exn Bool)
    (renderMarkdownBlock : Text → Text → Text → Value → Except Exn Text) (app device : Text)
    (catalog : Var) (values : Text → Option Resolved) (pieces : List Piece) where
  hash : Text
  chrome : List Piece
  header : List Piece
  vars : List (Text × Var)
  cards : List (List Piece)
  footer : List Piece
  chrome_ok : chromeMarkup strOf app (orEmpty (Value.lookup catalog "theme".toList)) = .ok chrome
  header_ok : blockMarkup renderMarkdownBlock app hash (orEmpty (Value.lookup catalog "ui".toList))
    "header_markdown" "header" "catalog-header-md" = .ok header
  vars_ok : customerFacing catalog = .ok vars
  cards_ok : vars.mapM (cardOf strOf fullmatch renderMarkdownBlock app hash values) = .ok cards
  footer_ok : blockMarkup renderMarkdownBlock app hash (orEmpty (Value.lookup catalog "ui".toList))
    "footer_markdown" "footer" "catalog-footer-md" = .ok footer
  pieces_eq : pieces = .tag [] false "section".toList [valued "class" "catalog-app".toList] ::
    (chrome ++ (header ++ (formPieces app device cards ++
      (footer ++ [.tag [] true "section".toList []]))))

theorem pageMarkup_parts {catalog : Var} {values : Text → Option Resolved} {pieces : List Piece}
    (h : pageMarkup strOf fullmatch renderMarkdownBlock publishHash app device catalog values =
      .ok pieces) :
    Nonempty (PageParts strOf fullmatch renderMarkdownBlock app device catalog values pieces) := by
  obtain ⟨hash, -, h⟩ := exists_of_bind_ok h
  obtain ⟨chrome, hchrome, h⟩ := exists_of_bind_ok h
  obtain ⟨header, hheader, h⟩ := exists_of_bind_ok h
  obtain ⟨vars, hvars, h⟩ := exists_of_bind_ok h
  obtain ⟨cards, hcards, h⟩ := exists_of_bind_ok h
  obtain ⟨footer, hfooter, h⟩ := exists_of_bind_ok h
  exact ⟨hash, chrome, header, vars, cards, footer, hchrome, hheader, hvars, hcards, hfooter,
    (Except.ok.inj h).symm⟩

theorem pageMarkup_wellFormed {catalog : Var} {values : Text → Option Resolved}
    {pieces : List Piece} (hmarkdown : Sanitizing renderMarkdownBlock)
    (h : pageMarkup strOf fullmatch renderMarkdownBlock publishHash app device catalog values =
      .ok pieces) : ∀ p ∈ pieces, p.WellFormed := by
  obtain ⟨parts⟩ := pageMarkup_parts h
  rw [parts.pieces_eq]
  simp only [List.forall_mem_cons, List.forall_mem_append]
  refine ⟨?_, chromeMarkup_wellFormed parts.chrome_ok,
    blockMarkup_wellFormed hmarkdown parts.header_ok, formPieces_wellFormed ?_,
    blockMarkup_wellFormed hmarkdown parts.footer_ok, wellFormed_end (by decide), by simp⟩
  · exact wellFormed_tag (labels ["class"]) false (by decide) (List.Sublist.refl _) (by decide)
  · intro card hcard
    obtain ⟨entry, -, hentry⟩ := mem_mapM_ok parts.cards_ok hcard
    exact cardMarkup_wellFormed hmarkdown hentry

-- Whatever the names, labels, hints and stored values are, a browser reads the tree that was
-- meant: none of them ends an attribute or begins an element.
theorem renderPage_reads (hmarkdown : Sanitizing renderMarkdownBlock) {catalog : Var}
    {values : Text → Option Resolved} {html : Text}
    (h : renderPage strOf fullmatch renderMarkdownBlock publishHash app device catalog values =
      .ok html) :
    ∃ pieces, pageMarkup strOf fullmatch renderMarkdownBlock publishHash app device catalog
      values = .ok pieces ∧ Html.tokenize html = some (pieces.flatMap Piece.tokens) := by
  rw [renderPage_eq] at h
  cases hpieces : pageMarkup strOf fullmatch renderMarkdownBlock publishHash app device catalog
      values with
  | error exn =>
      rw [hpieces] at h
      cases h
  | ok pieces =>
      rw [hpieces] at h
      obtain rfl := Except.ok.inj h
      exact ⟨pieces, rfl, Html.tokenize_pieces (pageMarkup_wellFormed hmarkdown hpieces)⟩

end Read

section Small

-- A variable whose label and value would be markup if they were not escaped, under a header.
def smallCatalog : Var :=
  [(.str "ui".toList, .dict [(.str "header_markdown".toList, .str "Hi".toList)]),
    (.str "vars".toList, .dict [(.str "n".toList, .dict [(.str "type".toList,
      .str "string".toList), (.str "label".toList, .str "<b>&".toList)])])]

def smallBlock : Text → Text → Text → Value → Except Exn Text :=
  fun _ _ _ _ => .ok "<p>Hi</p>\n".toList

def smallValues : Text → Option Resolved :=
  fun _ => some ⟨some "\"><script>".toList, false, false⟩

def renderSmall : Except Exn Text :=
  renderPage (fun _ => []) (fun _ _ => .ok true) smallBlock (fun _ => .ok "0a1b2c3d".toList)
    "lab".toList "dev1".toList smallCatalog smallValues

theorem smallBlock_sanitizing : Sanitizing smallBlock := by
  intro app hash blockId source markup h
  obtain rfl := Except.ok.inj h
  unfold Readable
  decide +kernel

theorem renderSmall_ok : ∃ html, renderSmall = .ok html := by
  cases h : renderSmall with
  | ok html => exact ⟨html, rfl⟩
  | error exn =>
      have hok : renderSmall.isOk = true := by decide +kernel
      rw [h] at hok
      cases hok

theorem renderSmall_reads :
    ∃ (html : Text) (pieces : List Piece), renderSmall = .ok html ∧
      Html.tokenize html = some (pieces.flatMap Piece.tokens) := by
  obtain ⟨html, h⟩ := renderSmall_ok
  obtain ⟨pieces, -, hread⟩ := renderPage_reads smallBlock_sanitizing h
  exact ⟨html, pieces, h, hread⟩

end Small

end Stra2us.Page.Markup
