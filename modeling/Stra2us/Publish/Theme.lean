import Mathlib.Data.List.Dedup
import Mathlib.Data.List.ReduceOption
import Stra2us.Client.Catalog
import Stra2us.Foundation.Css
import Stra2us.Publish.Lint

namespace Stra2us.Publish

open Foundation Server

section Schema

structure Theme where
  primaryColor : Option Text
  accentColor : Option Text
  bgColor : Option Text
  textColor : Option Text
  fontFamily : Option Text
  logoAsset : Option Text
  logoAlt : Option Text
  productName : Option Text
  faviconAsset : Option Text
deriving DecidableEq, Repr

def themeKeys : List Text :=
  ["primary_color".toList, "accent_color".toList, "bg_color".toList, "text_color".toList,
    "font_family".toList, "logo_asset".toList, "logo_alt".toList, "product_name".toList,
    "favicon_asset".toList]

def isThemeKey : Value → Bool
  | .str name => name ∈ themeKeys
  | _ => false

def themeField (pairs : List (Value × Value)) (key : String) : Option (Option Text) :=
  match Value.lookup pairs key.toList with
  | none | some .none => some none
  | some (.str text) => some (some text)
  | some _ => none

-- No value of a field but text or null, and no other field.
def validateTheme : Value → Option (Option Theme)
  | .none => some none
  | .dict pairs =>
      if pairs.all fun pair => isThemeKey pair.1 then do
        let primaryColor ← themeField pairs "primary_color"
        let accentColor ← themeField pairs "accent_color"
        let bgColor ← themeField pairs "bg_color"
        let textColor ← themeField pairs "text_color"
        let fontFamily ← themeField pairs "font_family"
        let logoAsset ← themeField pairs "logo_asset"
        let logoAlt ← themeField pairs "logo_alt"
        let productName ← themeField pairs "product_name"
        let faviconAsset ← themeField pairs "favicon_asset"
        some (some ⟨primaryColor, accentColor, bgColor, textColor, fontFamily, logoAsset, logoAlt,
          productName, faviconAsset⟩)
      else none
  | _ => none

end Schema

section Lint

def isHexDigit (c : Char) : Bool :=
  c.isDigit || ('a' ≤ c && c ≤ 'f') || ('A' ≤ c && c ≤ 'F')

-- `HEX_COLOR_RE` over the whole value.
def isHexColor : Text → Bool
  | [] => false
  | first :: digits =>
      first = '#' && digits.all isHexDigit &&
        (digits.length = 3 || digits.length = 4 || digits.length = 6 || digits.length = 8)

-- `$` also matches in front of a last newline.
def endsLike (full : Text → Bool) (value : Text) : Bool :=
  full value || (value.getLast? = some '\n' && full value.dropLast)

def builtinFonts : List Text :=
  ["system-ui".toList, "sans-serif".toList, "serif".toList, "monospace".toList]

-- The fonts of the environment, or the built-in ones.
def themeFontAllowlist (env : Option Text) : List Text :=
  match env with
  | none | some [] => builtinFonts
  | some raw => (((raw.splitOn ',').map strip).filter (· ≠ [])).dedup

def logoAltMaxLen : Nat := 100

def productNameMaxLen : Nat := 60

def isControl (c : Char) : Bool :=
  c.toNat < 32 || c.toNat = 127

variable (repr : Text → Text) (env : Option Text)

def lintThemeColor (path : String) (value : Text) : List LintIssue :=
  if endsLike isHexColor value then []
  else [⟨.error, path.toList, "must be #RRGGBB or #RGB hex, got ".toList ++ repr value⟩]

def lintFont (font : Text) : List LintIssue :=
  if font ∈ themeFontAllowlist env then []
  else [⟨.error, "theme.font_family".toList, repr font ++ " not in font allowlist (".toList ++
    listRepr repr (sorted (themeFontAllowlist env)) ++ ")".toList⟩]

def lintThemeAsset (assetListing : Option (List Text)) (path : String) (asset : Text) :
    List LintIssue :=
  if ¬ isFilename asset then
    [⟨.error, path.toList, "asset filename must match ".toList ++ filenamePattern ++
      ", got ".toList ++ repr asset⟩]
  else
    match assetListing with
    | none => []
    | some names =>
        if asset ∈ names then []
        else [⟨.error, path.toList, "references ".toList ++ repr asset ++ " but _assets/".toList ++
          asset ++ " not in bundle".toList⟩]

def lintThemeLine (maxLen : Nat) (path : String) (line : Text) : List LintIssue :=
  (if maxLen < line.length then
    [⟨.error, path.toList, "length ".toList ++ natText line.length ++ " exceeds ".toList ++
      natText maxLen⟩] else []) ++
    if line.any isControl then
      [⟨.error, path.toList, "must not contain control characters / newlines".toList⟩] else []

def onDeclared (lint : Text → List LintIssue) (field : Option Text) : List LintIssue :=
  (field.map lint).getD []

def lintTheme (theme : Option Theme) (assetListing : Option (List Text)) : List LintIssue :=
  match theme with
  | none => []
  | some theme =>
      onDeclared (lintThemeColor repr "theme.primary_color") theme.primaryColor ++
        onDeclared (lintThemeColor repr "theme.accent_color") theme.accentColor ++
        onDeclared (lintThemeColor repr "theme.bg_color") theme.bgColor ++
        onDeclared (lintThemeColor repr "theme.text_color") theme.textColor ++
        onDeclared (lintFont repr env) theme.fontFamily ++
        onDeclared (lintThemeAsset repr assetListing "theme.logo_asset") theme.logoAsset ++
        onDeclared (lintThemeAsset repr assetListing "theme.favicon_asset") theme.faviconAsset ++
        onDeclared (lintThemeLine logoAltMaxLen "theme.logo_alt") theme.logoAlt ++
        onDeclared (lintThemeLine productNameMaxLen "theme.product_name") theme.productName

-- What the server's gate has let through, as far as the theme depends on it.
structure Gated (doc : List (Value × Value)) (app : Text) (theme : Option Theme) : Prop where
  named : Value.lookup doc "app".toList = some (.str app)
  appShape : Client.isVarName app
  schema : validateTheme ((Value.lookup doc "theme".toList).getD .none) = some theme
  clean : errors (lintTheme repr env theme none) = []

end Lint

section Serialize

inductive Kind
  | color
  | font
deriving DecidableEq, Repr

def declarationTable : List (String × String × Kind) :=
  [("primary_color", "--app-primary", .color), ("accent_color", "--app-accent", .color),
    ("bg_color", "--app-bg", .color), ("text_color", "--app-text", .color),
    ("font_family", "--app-font", .font)]

def safeColor : Value → Option Text
  | .str value => if isHexColor value then some value else none
  | _ => none

def safeFont : Value → Option Text
  | .str value => if value ∈ builtinFonts then some value else none
  | _ => none

def validator : Kind → Value → Option Text
  | .color => safeColor
  | .font => safeFont

-- `APP_NAME_RE` over the whole name.
def isAppSlug : Text → Bool
  | [] => false
  | first :: rest => first.isLower && rest.all Client.isVarChar

def declarationOf (theme : List (Value × Value)) (entry : String × String × Kind) :
    Option (Text × Text) :=
  match Value.lookup theme entry.1.toList with
  | none | some .none => none
  | some raw => (validator entry.2.2 raw).map fun value => (entry.2.1.toList, value)

def serializeThemeCss (appSlug : Text) (theme : Option (List (Value × Value))) : Text :=
  if ¬ isAppSlug appSlug then []
  else
    let declarations := (declarationTable.filterMap (declarationOf (theme.getD []))).map
      fun d => "  ".toList ++ d.1 ++ ": ".toList ++ d.2 ++ ";".toList
    let selector := "[data-app=\"".toList ++ appSlug ++ "\"]".toList
    if declarations ≠ [] then
      selector ++ " \x7b\n".toList ++ List.intercalate "\n".toList declarations ++
        "\n\x7d\n".toList
    else selector ++ " \x7b\n\x7d\n".toList

def loadTheme (doc : List (Value × Value)) : Option (List (Value × Value)) :=
  match Value.lookup doc "theme".toList with
  | some (.dict pairs) => some pairs
  | _ => none

end Serialize

section Declared

-- The theme's colours and font, with the custom property each is declared as.
def Theme.entries (theme : Theme) : List (Text × Kind × Option Text) :=
  [("--app-primary".toList, .color, theme.primaryColor),
    ("--app-accent".toList, .color, theme.accentColor),
    ("--app-bg".toList, .color, theme.bgColor), ("--app-text".toList, .color, theme.textColor),
    ("--app-font".toList, .font, theme.fontFamily)]

def declarations (theme : Option Theme) : List (Text × Kind × Text) :=
  match theme with
  | none => []
  | some theme => theme.entries.filterMap fun entry => entry.2.2.map (entry.1, entry.2.1, ·)

def safe : Kind → Text → Bool
  | .color, value => isHexColor value
  | .font, value => value ∈ builtinFonts

-- One rule for the elements of the app, with one declaration for each colour and font.
def Agrees (app : Text) (theme : Option Theme) (css : Text) : Prop :=
  Css.read css = some [⟨"data-app".toList, app, (declarations theme).map fun d => (d.1, d.2.2)⟩]

variable {doc : List (Value × Value)} {app : Text} {theme : Option Theme}

theorem validator_str (kind : Kind) (value : Text) :
    validator kind (.str value) = if safe kind value then some value else none := by
  cases kind with
  | color => rfl
  | font => simp [validator, safeFont, safe]

theorem declarationOf_eq {pairs : List (Value × Value)} {key cssVar : String} {kind : Kind}
    {field : Option Text} (h : themeField pairs key = some field) :
    declarationOf pairs (key, cssVar, kind) =
      (field.filter (safe kind)).map (cssVar.toList, ·) := by
  unfold themeField at h
  unfold declarationOf
  dsimp only
  split at h
  · rename_i hlookup
    obtain rfl := Option.some.inj h
    rw [hlookup]
    rfl
  · rename_i hlookup
    obtain rfl := Option.some.inj h
    rw [hlookup]
    rfl
  · rename_i value hlookup
    obtain rfl := Option.some.inj h
    rw [hlookup]
    dsimp only
    rw [validator_str]
    cases hsafe : safe kind value with
    | true => simp [hsafe]
    | false => simp [hsafe]
  · nomatch h

-- What the schema has read of the five keys.
structure ReadsColors (pairs : List (Value × Value)) (theme : Theme) : Prop where
  primary : themeField pairs "primary_color" = some theme.primaryColor
  accent : themeField pairs "accent_color" = some theme.accentColor
  bg : themeField pairs "bg_color" = some theme.bgColor
  text : themeField pairs "text_color" = some theme.textColor
  font : themeField pairs "font_family" = some theme.fontFamily

theorem validateTheme_dict {pairs : List (Value × Value)}
    (h : validateTheme (.dict pairs) = some theme) : ∃ t, theme = some t ∧ ReadsColors pairs t := by
  unfold validateTheme at h
  dsimp only at h
  split_ifs at h
  obtain ⟨primaryColor, hprimary, h⟩ := Option.bind_eq_some_iff.mp h
  obtain ⟨accentColor, haccent, h⟩ := Option.bind_eq_some_iff.mp h
  obtain ⟨bgColor, hbg, h⟩ := Option.bind_eq_some_iff.mp h
  obtain ⟨textColor, htext, h⟩ := Option.bind_eq_some_iff.mp h
  obtain ⟨fontFamily, hfont, h⟩ := Option.bind_eq_some_iff.mp h
  obtain ⟨logoAsset, -, h⟩ := Option.bind_eq_some_iff.mp h
  obtain ⟨logoAlt, -, h⟩ := Option.bind_eq_some_iff.mp h
  obtain ⟨productName, -, h⟩ := Option.bind_eq_some_iff.mp h
  obtain ⟨faviconAsset, -, h⟩ := Option.bind_eq_some_iff.mp h
  exact ⟨_, (Option.some.inj h).symm, hprimary, haccent, hbg, htext, hfont⟩

-- A theme without a value is none, and any other is read as its fields.
theorem validateTheme_cases
    (h : validateTheme ((Value.lookup doc "theme".toList).getD .none) = some theme) :
    theme = none ∧ loadTheme doc = none ∨
      ∃ pairs t, theme = some t ∧ loadTheme doc = some pairs ∧ ReadsColors pairs t := by
  unfold loadTheme
  cases hlookup : Value.lookup doc "theme".toList with
  | none =>
      rw [hlookup] at h
      exact .inl ⟨(Option.some.inj h).symm, rfl⟩
  | some value =>
      rw [hlookup] at h
      cases value with
      | none => exact .inl ⟨(Option.some.inj h).symm, rfl⟩
      | dict pairs =>
          obtain ⟨t, ht, hreads⟩ := validateTheme_dict h
          exact .inr ⟨pairs, t, ht, rfl, hreads⟩
      | _ => cases h

theorem filterMap_entries (entries : List (Text × Kind × Option Text)) :
    entries.filterMap (fun entry => (entry.2.2.filter (safe entry.2.1)).map (entry.1, ·)) =
      ((entries.filterMap fun entry => entry.2.2.map (entry.1, entry.2.1, ·)).filter
        fun d => safe d.2.1 d.2.2).map fun d => (d.1, d.2.2) := by
  induction entries with
  | nil => rfl
  | cons entry entries ih =>
      obtain ⟨cssVar, kind, field⟩ := entry
      cases field with
      | none => simpa using ih
      | some value =>
          cases hsafe : safe kind value with
          | true => simpa [hsafe] using ih
          | false => simpa [hsafe] using ih

-- What the serializer keeps is what is declared, less what it does not take.
theorem filterMap_declarationOf
    (h : validateTheme ((Value.lookup doc "theme".toList).getD .none) = some theme) :
    declarationTable.filterMap (declarationOf ((loadTheme doc).getD [])) =
      ((declarations theme).filter fun d => safe d.2.1 d.2.2).map fun d => (d.1, d.2.2) := by
  rcases validateTheme_cases h with ⟨rfl, hload⟩ | ⟨pairs, t, rfl, hload, hreads⟩
  · rw [hload]
    rfl
  · have hentries := filterMap_entries t.entries
    rw [hload]
    unfold declarations
    dsimp only
    rw [← hentries]
    simp only [declarationTable, Theme.entries, List.filterMap_cons, List.filterMap_nil,
      Option.getD_some, declarationOf_eq hreads.primary, declarationOf_eq hreads.accent,
      declarationOf_eq hreads.bg, declarationOf_eq hreads.text, declarationOf_eq hreads.font]

theorem isPlain_of_isAlphanum {c : Char} (h : c.isAlphanum) : Css.isPlain c := by
  unfold Css.isPlain
  rw [h]
  rfl

theorem isAlphanum_of_isLower {c : Char} (h : c.isLower) : c.isAlphanum := by
  have hsplit : c.isAlphanum = ((c.isUpper || c.isLower) || c.isDigit) := rfl
  rw [hsplit, h, Bool.or_true, Bool.true_or]

theorem isAlphanum_of_isDigit {c : Char} (h : c.isDigit) : c.isAlphanum := by
  have hsplit : c.isAlphanum = ((c.isUpper || c.isLower) || c.isDigit) := rfl
  rw [hsplit, h, Bool.or_true]

theorem isPlain_of_isHexDigit {c : Char} (h : isHexDigit c) : Css.isPlain c := by
  unfold isHexDigit at h
  simp only [Bool.or_eq_true, Bool.and_eq_true, decide_eq_true_eq] at h
  apply isPlain_of_isAlphanum
  rcases h with (hdigit | ⟨hfrom, hto⟩) | ⟨hfrom, hto⟩
  · exact isAlphanum_of_isDigit hdigit
  · have hz : c ≤ 'z' := Char.le_trans hto (by decide)
    have hlower : c.isLower = true := by
      have hsplit : c.isLower = (decide ('a' ≤ c) && decide (c ≤ 'z')) := rfl
      rw [hsplit, decide_eq_true hfrom, decide_eq_true hz]
      rfl
    exact isAlphanum_of_isLower hlower
  · have hz : c ≤ 'Z' := Char.le_trans hto (by decide)
    have hupper : c.isUpper = true := decide_eq_true ⟨hfrom, hz⟩
    have hsplit : c.isAlphanum = ((c.isUpper || c.isLower) || c.isDigit) := rfl
    rw [hsplit, hupper, Bool.true_or, Bool.true_or]

theorem isWord_of_isHexColor {value : Text} (h : isHexColor value) : Css.IsWord value := by
  cases value with
  | nil => nomatch h
  | cons first digits =>
      simp only [isHexColor, Bool.and_eq_true, decide_eq_true_eq, List.all_eq_true] at h
      obtain ⟨⟨rfl, hdigits⟩, -⟩ := h
      refine ⟨List.cons_ne_nil _ _, ?_⟩
      intro c hc
      rcases List.mem_cons.mp hc with rfl | hc
      · rfl
      · exact isPlain_of_isHexDigit (hdigits c hc)

theorem isWord_of_safe {kind : Kind} {value : Text} (h : safe kind value) : Css.IsWord value := by
  cases kind with
  | color => exact isWord_of_isHexColor h
  | font =>
      have hfonts : builtinFonts.all (fun font => decide (Css.IsWord font)) = true := by
        decide +kernel
      have hin : value ∈ builtinFonts := of_decide_eq_true h
      exact of_decide_eq_true (List.all_eq_true.mp hfonts value hin)

theorem isWord_data_app : Css.IsWord "data-app".toList := by decide +kernel

theorem isWord_of_declared {d : Text × Kind × Text} (h : d ∈ declarations theme) :
    Css.IsWord d.1 := by
  cases theme with
  | none => nomatch h
  | some t =>
      obtain ⟨entry, hentry, hd⟩ := List.mem_filterMap.mp h
      obtain ⟨value, -, rfl⟩ := Option.map_eq_some_iff.mp hd
      have hnames : t.entries.all (fun entry => decide (Css.IsWord entry.1)) = true := rfl
      exact of_decide_eq_true (List.all_eq_true.mp hnames entry hentry)

theorem isPlain_of_isVarChar {c : Char} (h : Client.isVarChar c) : Css.isPlain c := by
  unfold Client.isVarChar at h
  simp only [Bool.or_eq_true, decide_eq_true_eq] at h
  rcases h with (hlower | hdigit) | rfl
  · exact isPlain_of_isAlphanum (isAlphanum_of_isLower hlower)
  · exact isPlain_of_isAlphanum (isAlphanum_of_isDigit hdigit)
  · rfl

theorem isWord_of_isAppSlug (h : isAppSlug app) : Css.IsWord app := by
  cases app with
  | nil => nomatch h
  | cons first rest =>
      simp only [isAppSlug, Bool.and_eq_true, List.all_eq_true] at h
      refine ⟨List.cons_ne_nil _ _, ?_⟩
      intro c hc
      rcases List.mem_cons.mp hc with rfl | hc
      · exact isPlain_of_isAlphanum (isAlphanum_of_isLower h.1)
      · exact isPlain_of_isVarChar (h.2 c hc)

-- Lines joined by line feeds, or each with one before it.
theorem intercalate_lines (line : Text) (lines : List Text) :
    '\n' :: List.intercalate "\n".toList (line :: lines) =
      (line :: lines).flatMap ('\n' :: ·) := by
  induction lines generalizing line with
  | nil => simp
  | cons next rest ih =>
      have hnext := ih next
      rw [List.flatMap_cons, ← hnext]
      simp [List.intercalate]

theorem serializeThemeCss_eq (happ : isAppSlug app)
    (h : validateTheme ((Value.lookup doc "theme".toList).getD .none) = some theme) :
    serializeThemeCss app (loadTheme doc) = Css.Rule.write ⟨"data-app".toList, app,
      ((declarations theme).filter fun d => safe d.2.1 d.2.2).map fun d => (d.1, d.2.2)⟩ := by
  have hkept := filterMap_declarationOf h
  unfold serializeThemeCss
  rw [if_neg (by simpa using happ)]
  dsimp only
  rw [hkept]
  generalize ((declarations theme).filter fun d => safe d.2.1 d.2.2).map
    (fun d => (d.1, d.2.2)) = kept
  cases kept with
  | nil => simp [Css.Rule.write]
  | cons d rest =>
      have hlines := intercalate_lines ("  ".toList ++ d.1 ++ ": ".toList ++ d.2 ++ ";".toList)
        (rest.map fun d => "  ".toList ++ d.1 ++ ": ".toList ++ d.2 ++ ";".toList)
      have hwritten : (d :: rest).flatMap Css.writeDeclaration =
          ((d :: rest).map fun d => "  ".toList ++ d.1 ++ ": ".toList ++ d.2 ++
            ";".toList).flatMap ('\n' :: ·) := by
        rw [List.flatMap_map]
        apply List.flatMap_congr
        intro e _
        simp [Css.writeDeclaration]
      rw [if_pos (by simp)]
      unfold Css.Rule.write
      rw [hwritten, List.map_cons, ← hlines]
      simp

theorem agrees_iff_safe
    (h : validateTheme ((Value.lookup doc "theme".toList).getD .none) = some theme) :
    Agrees app theme (serializeThemeCss app (loadTheme doc)) ↔
      isAppSlug app ∧ ∀ d ∈ declarations theme, safe d.2.1 d.2.2 := by
  unfold Agrees
  by_cases happ : isAppSlug app
  · have hread : Css.read (serializeThemeCss app (loadTheme doc)) = some [⟨"data-app".toList, app,
        ((declarations theme).filter fun d => safe d.2.1 d.2.2).map fun d => (d.1, d.2.2)⟩] := by
      rw [serializeThemeCss_eq happ h]
      apply Css.read_write
      refine ⟨isWord_data_app, isWord_of_isAppSlug happ, ?_⟩
      intro d hd
      obtain ⟨e, he, rfl⟩ := List.mem_map.mp hd
      obtain ⟨hdeclared, hsafe⟩ := List.mem_filter.mp he
      exact ⟨isWord_of_declared hdeclared, isWord_of_safe hsafe⟩
    rw [hread]
    simp only [Option.some.injEq, List.cons.injEq, Css.Rule.mk.injEq, true_and, and_true, happ]
    constructor
    · intro heq
      have hlength := congrArg List.length heq
      rw [List.length_map, List.length_map] at hlength
      exact List.length_filter_eq_length_iff.mp hlength
    · intro hall
      rw [List.filter_eq_self.mpr hall]
  · have hnone : serializeThemeCss app (loadTheme doc) = [] := by
      unfold serializeThemeCss
      rw [if_pos (by simpa using happ)]
    rw [hnone]
    constructor
    · intro hread
      cases hread
    · intro hsafe
      exact absurd hsafe.1 happ

end Declared

section Gate

variable {repr : Text → Text} {env : Option Text} {doc : List (Value × Value)} {app : Text}
  {theme : Option Theme}

def Theme.colors (theme : Theme) : List Text :=
  [theme.primaryColor, theme.accentColor, theme.bgColor, theme.textColor].reduceOption

-- Nothing ends in the line feed that the lint's patterns pass over, and the font is built in.
structure Plain (app : Text) (theme : Option Theme) : Prop where
  app : app.getLast? ≠ some '\n'
  colors : ∀ t ∈ theme, ∀ color ∈ t.colors, color.getLast? ≠ some '\n'
  font : ∀ t ∈ theme, ∀ font ∈ t.fontFamily, font ∈ builtinFonts

theorem errors_onDeclared {lint : Text → List LintIssue} {field : Option Text}
    (h : errors (onDeclared lint field) = []) : ∀ value ∈ field, errors (lint value) = [] := by
  intro value hvalue
  rw [Option.mem_def.mp hvalue] at h
  exact h

theorem endsLike_of_clean {path : String} {value : Text}
    (h : errors (lintThemeColor repr path value) = []) : endsLike isHexColor value := by
  unfold lintThemeColor at h
  split_ifs at h with hcolor
  · exact hcolor
  · cases h

-- The lint of a theme looks at each of its colours.
theorem endsLike_of_gated {t : Theme} (h : errors (lintTheme repr env (some t) none) = []) :
    ∀ color ∈ t.colors, endsLike isHexColor color := by
  simp only [lintTheme, errors_append, List.append_eq_nil_iff] at h
  obtain ⟨⟨⟨⟨⟨⟨⟨⟨hprimary, haccent⟩, hbg⟩, htext⟩, -⟩, -⟩, -⟩, -⟩, -⟩ := h
  intro color hcolor
  simp only [Theme.colors, List.reduceOption_mem_iff, List.mem_cons, List.not_mem_nil,
    or_false] at hcolor
  rcases hcolor with hfield | hfield | hfield | hfield
  · exact endsLike_of_clean (errors_onDeclared hprimary color hfield.symm)
  · exact endsLike_of_clean (errors_onDeclared haccent color hfield.symm)
  · exact endsLike_of_clean (errors_onDeclared hbg color hfield.symm)
  · exact endsLike_of_clean (errors_onDeclared htext color hfield.symm)

theorem newline_notMem_of_isWord {text : Text} (h : Css.IsWord text) :
    text.getLast? ≠ some '\n' := by
  intro hlast
  exact h.notMem (c := '\n') rfl (List.mem_of_getLast? hlast)

theorem isHexColor_iff {value : Text} (h : endsLike isHexColor value) :
    isHexColor value ↔ value.getLast? ≠ some '\n' := by
  constructor
  · intro hcolor
    exact newline_notMem_of_isWord (isWord_of_isHexColor hcolor)
  · intro hlast
    unfold endsLike at h
    simp only [Bool.or_eq_true, Bool.and_eq_true, decide_eq_true_eq] at h
    rcases h with hcolor | ⟨hnewline, -⟩
    · exact hcolor
    · exact absurd hnewline hlast

theorem isAppSlug_iff (h : Client.isVarName app) : isAppSlug app ↔ app.getLast? ≠ some '\n' := by
  constructor
  · intro hslug
    exact newline_notMem_of_isWord (isWord_of_isAppSlug hslug)
  · intro hlast
    cases app with
    | nil => nomatch h
    | cons first rest =>
        unfold Client.isVarName at h
        simp only [Bool.and_eq_true, Bool.or_eq_true, decide_eq_true_eq] at h
        obtain ⟨hfirst, hrest | ⟨hnewline, -⟩⟩ := h
        · have hsplit : isAppSlug (first :: rest) =
              (first.isLower && rest.all Client.isVarChar) := rfl
          rw [hsplit, hfirst, hrest]
          rfl
        · have hsame : (first :: rest).getLast? = some '\n' := by
            rw [List.getLast?_cons, hnewline]
            rfl
          exact absurd hsame hlast

theorem safe_declarations_iff {t : Theme} :
    (∀ d ∈ declarations (some t), safe d.2.1 d.2.2) ↔
      (∀ color ∈ t.colors, isHexColor color) ∧ ∀ font ∈ t.fontFamily, font ∈ builtinFonts := by
  have hfield {cssVar : Text} {kind : Kind} {value : Text}
      (hentry : (cssVar, kind, some value) ∈ t.entries) :
      (cssVar, kind, value) ∈ declarations (some t) :=
    List.mem_filterMap.mpr ⟨_, hentry, rfl⟩
  constructor
  · intro hsafe
    constructor
    · intro color hcolor
      have hcolorSafe (cssVar : Text) (hentry : (cssVar, Kind.color, some color) ∈ t.entries) :
          isHexColor color := hsafe _ (hfield hentry)
      simp only [Theme.colors, List.reduceOption_mem_iff, List.mem_cons, List.not_mem_nil,
        or_false] at hcolor
      rcases hcolor with hcolor | hcolor | hcolor | hcolor
      · exact hcolorSafe "--app-primary".toList (by simp [Theme.entries, hcolor])
      · exact hcolorSafe "--app-accent".toList (by simp [Theme.entries, hcolor])
      · exact hcolorSafe "--app-bg".toList (by simp [Theme.entries, hcolor])
      · exact hcolorSafe "--app-text".toList (by simp [Theme.entries, hcolor])
    · intro font hfont
      have hin : ("--app-font".toList, Kind.font, some font) ∈ t.entries := by
        simp [Theme.entries, Option.mem_def.mp hfont]
      exact of_decide_eq_true (hsafe _ (hfield hin))
  · rintro ⟨hcolors, hfont⟩ d hd
    obtain ⟨entry, hentry, hd⟩ := List.mem_filterMap.mp hd
    obtain ⟨value, hvalue, rfl⟩ := Option.map_eq_some_iff.mp hd
    simp only [Theme.entries, List.mem_cons, List.not_mem_nil, or_false] at hentry
    have hcolor (field : Option Text) (hlisted : field ∈ [t.primaryColor, t.accentColor, t.bgColor,
        t.textColor]) (hsome : field = some value) : isHexColor value :=
      hcolors value (List.reduceOption_mem_iff.mpr (hsome ▸ hlisted))
    rcases hentry with rfl | rfl | rfl | rfl | rfl
    · exact hcolor _ (by simp) hvalue
    · exact hcolor _ (by simp) hvalue
    · exact hcolor _ (by simp) hvalue
    · exact hcolor _ (by simp) hvalue
    · exact decide_eq_true (hfont value hvalue)

-- A catalog with one colour and a font.
def themedDoc (color font : String) : List (Value × Value) :=
  [(.str "app".toList, .str "demo".toList),
    (.str "theme".toList, .dict [(.str "primary_color".toList, .str color.toList),
      (.str "font_family".toList, .str font.toList)])]

def themed (color font : String) : Theme :=
  ⟨some color.toList, none, none, none, some font.toList, none, none, none, none⟩

end Gate

end Stra2us.Publish
