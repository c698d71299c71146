import Stra2us.Foundation.Substitute
import Stra2us.Page.Render
import Stra2us.Page.Scope
import Stra2us.Publish.Theme

namespace Stra2us.Page

open Foundation Server
open Foundation.Substitute (Template Guards chain replaceAll)

section Template

-- What the template of the device's page leaves open.
inductive Place
  | app
  | device
  | themeHash
  | settingsSection
  | telemetryTopic
  | heartbeatSeconds
  | faviconHref
deriving DecidableEq, Repr

def Place.name : Place → Text
  | app => "APP".toList
  | device => "DEVICE".toList
  | themeHash => "THEME_HASH".toList
  | settingsSection => "SETTINGS_SECTION".toList
  | telemetryTopic => "TELEMETRY_TOPIC".toList
  | heartbeatSeconds => "HEARTBEAT_SECONDS".toList
  | faviconHref => "FAVICON_HREF".toList

def Place.placeholder (place : Place) : Text :=
  "\x7b\x7b".toList ++ place.name ++ "\x7d\x7d".toList

-- The order in which they are replaced.
def places : List Place :=
  [.app, .device, .themeHash, .settingsSection, .telemetryTopic, .heartbeatSeconds, .faviconHref]

def textOf (lines : List String) : Text :=
  lines.flatMap String.toList

-- `device.html`: the text in front of the first place, and each place with the text behind it.
def deviceHead : List String :=
  ["<!doctype html>\n", "<!--\n", "  Per-app branding placeholders "]

def deviceParts : List (Place × List String) := [
  (.app, [" and "]),
  (.themeHash,
    [" are\n", "  substituted at request time by `device_page` in\n",
     "  backend/src/api/routes_app.py before this file is served. The\n",
     "  `data-app=\"<slug>\"` on <body> is what the per-app theme stylesheet\n",
     "  scopes its `--app-*` custom-property overrides to. P2 of\n",
     "  docs/fr_catalog_app_ui_plan.md.\n", "-->\n", "<html lang=\"en\">\n", "<head>\n",
     "    <meta charset=\"utf-8\">\n",
     "    <meta name=\"viewport\" content=\"width=device-width, initial-scale=1\">\n",
     "    <title>Device</title>\n",
     "    <!-- Favicon: per-app via `theme.favicon_asset` if set, otherwise\n",
     "         the default at /app/_static/favicon.png. Substituted at\n",
     "         request time by `_render_device_page` in routes_app.py.\n",
     "         No `type=` attribute since the per-app asset may be any\n",
     "         format the catalog declares (svg/png/ico); browsers\n",
     "         sniff content type from the URL extension. -->\n",
     "    <link rel=\"icon\" href=\""]),
  (.faviconHref,
    ["\">\n", "    <link rel=\"stylesheet\" href=\"/app/_static/styles.css?v=3\">\n",
     "    <link rel=\"stylesheet\" href=\"/app/"]),
  (.app, ["/_theme.css?v="]),
  (.themeHash, ["\">\n", "</head>\n", "<body class=\"app-page app-device-page\" data-app=\""]),
  (.app, ["\"\n", "      data-device=\""]),
  (.device, ["\"\n", "      data-telemetry-topic=\""]),
  (.telemetryTopic, ["\"\n", "      data-heartbeat-seconds=\""]),
  (.heartbeatSeconds,
    ["\">\n", "    <main class=\"app-device\">\n", "        <header class=\"device-header\">\n",
     "            <!-- Device name + status badge. Filled in by app.js (the\n",
     "                 telemetry tail keeps the badge live). The catalog +\n",
     "                 settings form themselves are server-rendered now (P3),\n",
     "                 so the \"Loading…\" skeleton is only here for the\n",
     "                 device-name + status, which still depend on /me +\n",
     "                 telemetry fetches. -->\n",
     "            <h1 id=\"deviceName\">Loading&hellip;</h1>\n",
     "            <div class=\"device-status\">\n",
     "                <span id=\"statusBadge\" class=\"status-badge status-loading\">&hellip;</span>\n",
     "                <span id=\"statusDetail\" class=\"status-detail\"></span>\n",
     "            </div>\n", "        </header>\n", "\n", "        "]),
  (.settingsSection,
    ["\n", "\n", "        <section class=\"activity\" id=\"activitySection\">\n",
     "            <h2>Recent activity</h2>\n", "            <div id=\"activityList\">\n",
     "                <p class=\"hint\">Loading&hellip;</p>\n", "            </div>\n",
     "        </section>\n", "\n", "        <footer class=\"device-footer\">\n",
     "            <p class=\"hint\" id=\"footerHint\"></p>\n", "        </footer>\n",
     "    </main>\n", "\n", "    <!-- Customer-page JS: telemetry-tail polling, Reveal-button\n",
     "         decryption, and (P4) the touched-state form module. Loaded\n",
     "         as a `<script type=\"module\">` so app.js can `import` from\n",
     "         `forms/touched_state.js` without leaking the import chain\n",
     "         to global scope. Modules are deferred by default — no\n",
     "         `defer` attribute needed. -->\n",
     "    <script type=\"module\" src=\"/app/_static/app.js?v=15\"></script>\n", "</body>\n",
     "</html>\n"])]

def deviceTemplate : Template Place where
  first := textOf deviceHead
  rest := deviceParts.map fun part => (part.1, textOf part.2)

-- The template as the file has it.
def deviceTemplateText : Text :=
  deviceTemplate.fill Place.placeholder

end Template

section Source

variable (site : Site) (strOf : Value → Text) (fullmatch : Value → Text → Except Exn Bool)
variable (renderMarkdownBlock : Text → Text → Text → Value → Except Exn Text)
variable (publishHash : List (Value × Value) → Except Exn Text)
variable (themeHash : Option (List (Value × Value)) → Text)

def resolveTelemetryTopic (app device : Text) (catalog : Option (List (Value × Value))) :
    Except Exn Text :=
  let substitute := fun declared =>
    replaceAll "\x7bdevice\x7d".toList device (replaceAll "\x7bapp\x7d".toList app declared)
  match Value.lookup (catalog.getD []) "telemetry_topic".toList with
  | some declared =>
      if declared.truthy then
        match declared with
        | .str text => .ok (substitute text)
        | .bytes _ => .error (.python "TypeError".toList)
        | .surrogates _ => .error (.python "UnicodeEncodeError".toList)
        | _ => .error (.python "AttributeError".toList)
      else .ok (substitute "\x7bapp\x7d/public/heartbeep".toList)
  | none => .ok (substitute "\x7bapp\x7d/public/heartbeep".toList)

-- `True` is a positive integer, too.
def resolveHeartbeatSeconds (catalog : Option (List (Value × Value))) : Value :=
  match Value.lookup (catalog.getD []) "heartbeat_interval_seconds".toList with
  | some (.int n) => if 0 < n then .int n else .int 60
  | some (.bool true) => .bool true
  | _ => .int 60

def resolveFaviconHref (app : Text) (catalog : Option (List (Value × Value))) : Text :=
  let fallback := "/app/_static/favicon.png".toList
  match Value.lookup (catalog.getD []) "theme".toList with
  | some (.dict theme) =>
      match Value.lookup theme "favicon_asset".toList with
      | some (.str (c :: asset)) => Markup.assetPath app (c :: asset)
      | _ => fallback
  | _ => fallback

def readKvRecord (key : Text) : Handler (Option Value × Bool) := do
  match ← Handler.get (kvKey key) with
  | none => pure (none, false)
  | some raw => do
      let encrypted := truthy (← Handler.get (encKey key))
      match Msgpack.unpackb false raw with
      | none | some .none => pure (none, encrypted)
      | some value => pure (some value, encrypted)

def resolveVar (app device : Text) (entry : Text × List (Value × Value)) : Handler Resolved := do
  match ← readKvRecord (fieldKey app device entry.1) with
  | (some value, encrypted) => pure ⟨some (toFormString strOf value), encrypted, false⟩
  | (none, _) => do
      match ← readKvRecord (fieldKey app "public".toList entry.1) with
      | (some value, encrypted) => pure ⟨some (toFormString strOf value), encrypted, false⟩
      | (none, _) =>
          match Value.lookup entry.2 "default".toList with
          | none | some .none => pure ⟨none, false, false⟩
          | some default => pure ⟨some (toFormString strOf default), false, true⟩

def resolveVars (app device : Text) :
    List (Text × List (Value × Value)) → Handler (List (Text × Resolved))
  | [] => pure []
  | entry :: rest => do
      let resolved ← resolveVar strOf app device entry
      let others ← resolveVars app device rest
      pure ((entry.1, resolved) :: others)

def noCatalogNotice : Text :=
  ("<section class=\"catalog-app\"><p class=\"hint\">No catalog published for this app yet — " ++
    "check back once your operator has run <code>stra2us catalog publish</code>.</p>" ++
      "</section>").toList

def renderSettingsSection (app device : Text) (catalog : Option (List (Value × Value))) :
    Handler Text := do
  match catalog with
  | none => pure noCatalogNotice
  | some catalog => do
      let vars ← Handler.ofExcept (Markup.customerFacing catalog)
      let values ← resolveVars strOf app device vars
      Handler.ofExcept (Markup.renderPage strOf fullmatch renderMarkdownBlock publishHash app device
        catalog fun name => (values.find? fun entry => entry.1 = name).map Prod.snd)

-- What replaces each placeholder.
structure Filling where
  app : Text
  device : Text
  themeHash : Text
  settingsSection : Text
  telemetryTopic : Text
  heartbeatSeconds : Text
  faviconHref : Text

def Filling.value (filling : Filling) : Place → Text
  | .app => filling.app
  | .device => filling.device
  | .themeHash => filling.themeHash
  | .settingsSection => filling.settingsSection
  | .telemetryTopic => filling.telemetryTopic
  | .heartbeatSeconds => filling.heartbeatSeconds
  | .faviconHref => filling.faviconHref

def Filling.substitutions (filling : Filling) : List (Text × Text) :=
  places.map fun place => (place.placeholder, filling.value place)

def fillDevicePage (filling : Filling) : Text :=
  chain filling.substitutions deviceTemplateText

-- The theme is read from the record of the catalog once more.
def devicePageFilling (app device : Text) : Handler Filling := do
  let catalog ← loadCatalogDict site app
  let themed ← loadCatalogDict site app
  let settings ← renderSettingsSection strOf fullmatch renderMarkdownBlock publishHash app device
    catalog
  let topic ← Handler.ofExcept (resolveTelemetryTopic app device catalog)
  pure {
    app := app
    device := device
    themeHash := (themed.map fun doc => themeHash (Publish.loadTheme doc)).getD []
    settingsSection := settings
    telemetryTopic := topic
    heartbeatSeconds := pyText strOf (resolveHeartbeatSeconds catalog)
    faviconHref := resolveFaviconHref app catalog }

inductive DevicePage
  | landing
  | rendered (text : Text)
deriving DecidableEq, Repr

-- Someone who may not write to the device gets the landing page.
def devicePageHandler (username app device : Text) : Handler DevicePage := do
  let acl ← getAdminContext site.jsonDepth site.rescueUsers username
  match checkAcl acl ("kv/".toList ++ app ++ '/' :: device) .write with
  | .error (.http _ _) => pure .landing
  | .error exn => throw exn
  | .ok () => do
      let filling ← devicePageFilling site strOf fullmatch renderMarkdownBlock publishHash themeHash
        app device
      pure (.rendered (fillDevicePage filling))

end Source

section Simultaneous

-- What a placeholder is made of.
def isPlaceholderChar (c : Char) : Bool :=
  c = '\x7b' || c = '\x7d' || c = '_' || c.isUpper

theorem placeholder_chars (place : Place) :
    ∀ c ∈ place.placeholder, isPlaceholderChar c := by
  apply List.all_eq_true.mp
  cases place <;> decide

theorem brace_mem (place : Place) : '\x7b' ∈ place.placeholder := by
  cases place <;> decide

theorem placeholder_ne_nil (place : Place) : place.placeholder ≠ [] := by
  cases place <;> decide

theorem placeholder_apart {a b : Place} (h : a ≠ b) : ¬ a.placeholder <:+: b.placeholder := by
  cases a <;> cases b <;> first | exact absurd rfl h | decide

-- Text with no brace in it, and with ends that are in no placeholder.
def isLiteral (text : Text) : Bool :=
  text.all (· ≠ '\x7b') && text.head?.any (!isPlaceholderChar ·) &&
    text.getLast?.any (!isPlaceholderChar ·)

theorem not_placeholder {c : Char} (h : (!isPlaceholderChar c) = true) (place : Place) :
    c ∉ place.placeholder := by
  intro hmem
  rw [placeholder_chars place c hmem] at h
  cases h

theorem guards_of_isLiteral {literal : Text} (h : isLiteral literal) (place : Place) :
    Guards place.placeholder literal := by
  unfold isLiteral at h
  rw [Bool.and_eq_true, Bool.and_eq_true, List.all_eq_true] at h
  obtain ⟨⟨hall, hfront⟩, hback⟩ := h
  refine ⟨fun hin => ?_, ?_, ?_⟩
  · exact of_decide_eq_true (hall _ (hin.subset (brace_mem place))) rfl
  · cases literal with
    | nil => cases hfront
    | cons c rest => exact ⟨c, rest, rfl, not_placeholder hfront place⟩
  · cases hlast : literal.getLast? with
    | none =>
        rw [hlast] at hback
        cases hback
    | some c =>
        obtain ⟨before, rfl⟩ := List.getLast?_eq_some_iff.mp hlast
        rw [hlast] at hback
        exact ⟨before, c, rfl, not_placeholder hback place⟩

theorem isLiteral_append {a b : Text} (ha : isLiteral a) (hb : isLiteral b) :
    isLiteral (a ++ b) := by
  unfold isLiteral at ha hb ⊢
  rw [Bool.and_eq_true, Bool.and_eq_true] at ha hb ⊢
  refine ⟨⟨?_, ?_⟩, ?_⟩
  · rw [List.all_append, ha.1.1, hb.1.1]
    rfl
  · cases a with
    | nil => cases ha.1.2
    | cons c rest => exact ha.1.2
  · rw [List.getLast?_append]
    cases hlast : b.getLast? with
    | none =>
        rw [hlast] at hb
        cases hb.2
    | some c =>
        rw [hlast] at hb
        exact hb.2

theorem isLiteral_textOf {lines : List String} (hne : lines ≠ [])
    (h : ∀ line ∈ lines, isLiteral line.toList) : isLiteral (textOf lines) := by
  induction lines with
  | nil => exact absurd rfl hne
  | cons line lines ih =>
      rw [List.forall_mem_cons] at h
      rw [textOf, List.flatMap_cons]
      cases lines with
      | nil => rw [List.flatMap_nil, List.append_nil]; exact h.1
      | cons next rest => exact isLiteral_append h.1 (ih (List.cons_ne_nil next rest) h.2)

-- A line as the characters it is made of.
theorem isLiteral_line {line : Text} (h : isLiteral line) :
    isLiteral (String.ofList line).toList := by
  rwa [String.toList_ofList]

theorem deviceHead_literal : ∀ line ∈ deviceHead, isLiteral line.toList := by
  unfold deviceHead
  repeat' first
    | exact List.forall_mem_nil _
    | refine List.forall_mem_cons.mpr ⟨?_, ?_⟩
    | exact isLiteral_line (by decide +kernel)

theorem deviceParts_literal : ∀ part ∈ deviceParts, ∀ line ∈ part.2, isLiteral line.toList := by
  unfold deviceParts
  repeat' first
    | exact List.forall_mem_nil _
    | refine List.forall_mem_cons.mpr ⟨?_, ?_⟩
    | exact isLiteral_line (by decide +kernel)

theorem deviceTemplate_literals : ∀ literal ∈ deviceTemplate.literals, isLiteral literal := by
  intro literal hliteral
  rcases List.mem_cons.mp hliteral with rfl | hliteral
  · exact isLiteral_textOf (by decide) deviceHead_literal
  · obtain ⟨part, hpart, rfl⟩ := List.mem_map.mp hliteral
    obtain ⟨source, hsource, rfl⟩ := List.mem_map.mp hpart
    have hne : ∀ part ∈ deviceParts, part.2 ≠ [] := by simp [deviceParts]
    exact isLiteral_textOf (hne source hsource) (deviceParts_literal source hsource)

theorem deviceTemplate_guards (filling : Filling) :
    ∀ sub ∈ filling.substitutions, ∀ literal ∈ deviceTemplate.literals,
      Guards sub.1 literal := by
  intro sub hsub literal hliteral
  obtain ⟨place, -, rfl⟩ := List.mem_map.mp hsub
  exact guards_of_isLiteral (deviceTemplate_literals literal hliteral) place

-- What is replaced after a place.
def Filling.later (filling : Filling) (place : Place) : List (Text × Text) :=
  ((places.dropWhile (· ≠ place)).drop 1).map fun other => (other.placeholder, filling.value other)

theorem chain_placeholder (filling : Filling) (place : Place) :
    chain filling.substitutions place.placeholder =
      chain (filling.later place) (filling.value place) := by
  have hsplit : places = places.takeWhile (· ≠ place) ++
      place :: (places.dropWhile (· ≠ place)).drop 1 := by
    cases place <;> rfl
  have hbefore : ∀ earlier ∈ (places.takeWhile (· ≠ place)).map fun other =>
      (other.placeholder, filling.value other), ¬ earlier.1 <:+: place.placeholder := by
    intro earlier hearlier
    obtain ⟨other, hother, rfl⟩ := List.mem_map.mp hearlier
    have hne := @List.mem_takeWhile_imp _ (fun x => decide (x ≠ place)) _ _ hother
    exact placeholder_apart (of_decide_eq_true hne)
  have hchain := @Substitute.chain_place _ (filling.later place)
    (place.placeholder, filling.value place) (placeholder_ne_nil place) hbefore
  unfold Filling.substitutions
  rw [hsplit, List.map_append, List.map_cons]
  exact hchain

-- Each place of the page holds its value, with what the later replacements have done to it.
theorem fillDevicePage_eq (filling : Filling) :
    fillDevicePage filling =
      deviceTemplate.fill fun place => chain (filling.later place) (filling.value place) := by
  have hne : ∀ sub ∈ filling.substitutions, sub.1 ≠ [] := by
    intro sub hsub
    obtain ⟨place, -, rfl⟩ := List.mem_map.mp hsub
    exact placeholder_ne_nil place
  unfold fillDevicePage deviceTemplateText
  rw [Substitute.chain_fill hne (deviceTemplate_guards filling)]
  exact congrArg deviceTemplate.fill (funext (chain_placeholder filling))

-- No value holds a placeholder that is replaced after it.
def Filling.Undisturbed (filling : Filling) : Prop :=
  ∀ place, ∀ other ∈ filling.later place, ¬ other.1 <:+: filling.value place

theorem fillDevicePage_undisturbed {filling : Filling} (h : filling.Undisturbed) :
    fillDevicePage filling = deviceTemplate.fill filling.value := by
  rw [fillDevicePage_eq]
  exact congrArg deviceTemplate.fill (funext fun place => Substitute.chain_absent (h place))

end Simultaneous

section Reading

variable {site : Site} {strOf : Value → Text} {fullmatch : Value → Text → Except Exn Bool}
variable {renderMarkdownBlock : Text → Text → Text → Value → Except Exn Text}
variable {publishHash : List (Value × Value) → Except Exn Text}
variable {themeHash : Option (List (Value × Value)) → Text}
variable {username app device : Text} {w : World}

theorem readKvRecord_runOn (key : Text) (w : World) :
    (readKvRecord key).runOn w = (.ok (readKv w.store key), w) := by
  unfold readKvRecord readKv
  have hget : (Handler.get (kvKey key)).runOn w = (.ok (w.store.get (kvKey key)), w) := rfl
  rw [Handler.runOn_bind_of_ok hget]
  cases w.store.get (kvKey key) with
  | none => rfl
  | some raw =>
      have hflag : (Handler.get (encKey key)).runOn w = (.ok (w.store.get (encKey key)), w) := rfl
      dsimp only
      rw [Handler.runOn_bind_of_ok hflag]
      cases Msgpack.unpackb false raw with
      | none => rfl
      | some value =>
          cases value with
          | _ => rfl

theorem resolveVar_runOn (entry : Text × List (Value × Value)) (w : World) :
    (resolveVar strOf app device entry).runOn w =
      (.ok (resolveValue strOf w.store app device entry.1 entry.2), w) := by
  unfold resolveVar resolveValue
  rw [Handler.runOn_bind_of_ok (readKvRecord_runOn _ w)]
  obtain ⟨own, encrypted⟩ := readKv w.store (fieldKey app device entry.1)
  cases own with
  | some value => rfl
  | none =>
      dsimp only
      rw [Handler.runOn_bind_of_ok (readKvRecord_runOn _ w)]
      obtain ⟨shared, encrypted⟩ := readKv w.store (fieldKey app "public".toList entry.1)
      cases shared with
      | some value => rfl
      | none =>
          cases Value.lookup entry.2 "default".toList with
          | none => rfl
          | some fallback =>
              cases fallback with
              | _ => rfl

theorem resolveVars_runOn (vars : List (Text × List (Value × Value))) (w : World) :
    (resolveVars strOf app device vars).runOn w =
      (.ok (vars.map fun entry =>
        (entry.1, resolveValue strOf w.store app device entry.1 entry.2)), w) := by
  induction vars with
  | nil => rfl
  | cons entry vars ih =>
      rw [resolveVars, Handler.runOn_bind_of_ok (resolveVar_runOn entry w),
        Handler.runOn_bind_of_ok ih]
      rfl

-- What the page has for a variable, from the store it was made from.
def storedValues (strOf : Value → Text) (s : Store) (app device : Text)
    (vars : List (Text × List (Value × Value))) (name : Text) : Option Resolved :=
  (vars.find? fun entry => entry.1 = name).map fun entry =>
    resolveValue strOf s app device entry.1 entry.2

-- The section of the settings, as it is rendered from a store.
def settingsSection (strOf : Value → Text) (fullmatch : Value → Text → Except Exn Bool)
    (renderMarkdownBlock : Text → Text → Text → Value → Except Exn Text)
    (publishHash : List (Value × Value) → Except Exn Text) (s : Store) (app device : Text)
    (catalog : Option (List (Value × Value))) : Except Exn Text :=
  match catalog with
  | none => .ok noCatalogNotice
  | some catalog => do
      let vars ← Markup.customerFacing catalog
      Markup.renderPage strOf fullmatch renderMarkdownBlock publishHash app device catalog
        (storedValues strOf s app device vars)

theorem renderSettingsSection_runOn (catalog : Option (List (Value × Value))) (w : World) :
    (renderSettingsSection strOf fullmatch renderMarkdownBlock publishHash app device
        catalog).runOn w =
      (settingsSection strOf fullmatch renderMarkdownBlock publishHash w.store app device catalog,
        w) := by
  cases catalog with
  | none => rfl
  | some catalog =>
      unfold renderSettingsSection settingsSection
      dsimp only
      cases Markup.customerFacing catalog with
      | error exn => rfl
      | ok vars =>
          have hvalues : (fun name => ((vars.map fun entry =>
              (entry.1, resolveValue strOf w.store app device entry.1 entry.2)).find? fun entry =>
                entry.1 = name).map Prod.snd) = storedValues strOf w.store app device vars := by
            funext name
            rw [List.find?_map, Option.map_map]
            rfl
          rw [Handler.runOn_ofExcept_ok_bind, Handler.runOn_bind_of_ok (resolveVars_runOn vars w),
            hvalues]
          rfl

-- The page, with everything on it read from one store.
structure Fills (site : Site) (strOf : Value → Text) (fullmatch : Value → Text → Except Exn Bool)
    (renderMarkdownBlock : Text → Text → Text → Value → Except Exn Text)
    (publishHash : List (Value × Value) → Except Exn Text)
    (themeHash : Option (List (Value × Value)) → Text) (app device : Text) (s : Store)
    (filling : Filling) : Prop where
  ofApp : filling.app = app
  ofDevice : filling.device = device
  ofCatalog : ∃ catalog, catalogOfRecord site (s.get (catalogKey app)) = .ok catalog ∧
    filling.themeHash = (catalog.map fun doc => themeHash (Publish.loadTheme doc)).getD [] ∧
    settingsSection strOf fullmatch renderMarkdownBlock publishHash s app device catalog =
      .ok filling.settingsSection ∧
    resolveTelemetryTopic app device catalog = .ok filling.telemetryTopic ∧
    filling.heartbeatSeconds = pyText strOf (resolveHeartbeatSeconds catalog) ∧
    filling.faviconHref = resolveFaviconHref app catalog

theorem devicePageFilling_runOn (w : World) :
    ((devicePageFilling site strOf fullmatch renderMarkdownBlock publishHash themeHash app
        device).runOn w).2 = w ∧
      ∀ filling, ((devicePageFilling site strOf fullmatch renderMarkdownBlock publishHash themeHash
        app device).runOn w).1 = .ok filling →
        Fills site strOf fullmatch renderMarkdownBlock publishHash themeHash app device w.store
          filling := by
  unfold devicePageFilling
  cases hcatalog : catalogOfRecord site (w.store.get (catalogKey app)) with
  | error exn =>
      have hload : (loadCatalogDict site app).runOn w = (.error exn, w) := by
        rw [loadCatalogDict_runOn, hcatalog]
      rw [Handler.runOn_bind_of_error hload]
      exact ⟨rfl, fun _ h => by cases h⟩
  | ok catalog =>
      have hload : (loadCatalogDict site app).runOn w = (.ok catalog, w) := by
        rw [loadCatalogDict_runOn, hcatalog]
      have hsection := @renderSettingsSection_runOn strOf fullmatch renderMarkdownBlock publishHash
        app device catalog w
      rw [Handler.runOn_bind_of_ok hload, Handler.runOn_bind_of_ok hload]
      cases hsettings : settingsSection strOf fullmatch renderMarkdownBlock publishHash w.store app
          device catalog with
      | error exn =>
          rw [hsettings] at hsection
          rw [Handler.runOn_bind_of_error hsection]
          exact ⟨rfl, fun _ h => by cases h⟩
      | ok settings =>
          rw [hsettings] at hsection
          rw [Handler.runOn_bind_of_ok hsection]
          cases htopic : resolveTelemetryTopic app device catalog with
          | error exn => exact ⟨rfl, fun _ h => by cases h⟩
          | ok topic =>
              refine ⟨rfl, fun filling h => ?_⟩
              obtain rfl := Except.ok.inj h
              exact ⟨rfl, rfl, catalog, hcatalog, rfl, hsettings, htopic, rfl, rfl⟩

-- A request for the page changes nothing. Only who may write to the device is shown it, with
-- everything on it from one state of the store: the template with each place filled by its value,
-- and nothing in a value replaced but placeholders that come later.
theorem devicePage_renders (w : World) :
    ((devicePageHandler site strOf fullmatch renderMarkdownBlock publishHash themeHash username app
        device).runOn w).2 = w ∧
      ∀ text, ((devicePageHandler site strOf fullmatch renderMarkdownBlock publishHash themeHash
          username app device).runOn w).1 = .ok (.rendered text) →
        MaySubmit site username app device w ∧
          ∃ filling, Fills site strOf fullmatch renderMarkdownBlock publishHash themeHash app device
              w.store filling ∧
            text = deviceTemplate.fill (fun place =>
              chain (filling.later place) (filling.value place)) ∧
            (filling.Undisturbed → text = deviceTemplate.fill filling.value) := by
  unfold devicePageHandler
  have hcontext := getAdminContext_runOn site.jsonDepth site.rescueUsers username w
  cases hacl : adminContextIn site.jsonDepth site.rescueUsers username w.store with
  | error exn =>
      rw [hacl] at hcontext
      rw [Handler.runOn_bind_of_error hcontext]
      exact ⟨rfl, fun _ h => by cases h⟩
  | ok acl =>
      rw [hacl] at hcontext
      rw [Handler.runOn_bind_of_ok hcontext]
      cases hcheck : checkAcl acl ("kv/".toList ++ app ++ '/' :: device) .write with
      | error exn =>
          cases exn with
          | http status detail => exact ⟨rfl, fun _ h => by cases h⟩
          | python name => exact ⟨rfl, fun _ h => by cases h⟩
          | outOfFuel => exact ⟨rfl, fun _ h => by cases h⟩
      | ok value =>
          obtain ⟨hworld, hfills⟩ := @devicePageFilling_runOn site strOf fullmatch
            renderMarkdownBlock publishHash themeHash app device w
          dsimp only
          rw [Handler.runOn_bind]
          cases hrun : (devicePageFilling site strOf fullmatch renderMarkdownBlock publishHash
              themeHash app device).runOn w with
          | mk result w' =>
              rw [hrun] at hworld hfills
              cases result with
              | error exn => exact ⟨hworld, fun _ h => by cases h⟩
              | ok filling =>
                  refine ⟨hworld, fun text h => ⟨⟨acl, hcontext, hcheck⟩, filling,
                    hfills filling rfl, ?_⟩⟩
                  obtain rfl := DevicePage.rendered.inj (Except.ok.inj h)
                  exact ⟨fillDevicePage_eq filling, fillDevicePage_undisturbed⟩

end Reading

end Stra2us.Page
