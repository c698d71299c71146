import Stra2us.Foundation.Hex
import Stra2us.Foundation.Machine
import Stra2us.Foundation.Memo
import Stra2us.Foundation.SortedJson
import Stra2us.Page.Form

namespace Stra2us.Page

open Foundation Server

section Blocks

-- A catalog as the loader gives it, once it has passed the schema.
structure AcceptedCatalog where
  pairs : List (Value × Value)
  clean : Json.Clean (.dict pairs)

def AcceptedCatalog.value (catalog : AcceptedCatalog) : Value :=
  .dict catalog.pairs

inductive BlockId
  | header
  | footer
  | help (varName : Text)
deriving DecidableEq, Repr

def BlockId.text : BlockId → Text
  | .header => "header".toList
  | .footer => "footer".toList
  | .help varName => "help.".toList ++ varName

structure Block where
  id : BlockId
  source : Text
deriving DecidableEq, Repr

-- A text that is there and not empty.
def markdown (mapping : Value) (name : String) : Option Text :=
  match mapping.field name.toList with
  | some (.str text) => if text = [] then none else some text
  | _ => none

-- `catalog.get("ui") or {}`
def catalogUi (catalog : AcceptedCatalog) : Value :=
  match Value.lookup catalog.pairs "ui".toList with
  | some ui => if ui.truthy then ui else .dict []
  | none => .dict []

-- The blocks of a page in the order they are rendered in.
def blocks (catalog : AcceptedCatalog) : List Block :=
  ((markdown (catalogUi catalog) "header_markdown").map (Block.mk .header)).toList ++
    (customerFacingVars (catalogVars (some catalog.pairs))).filterMap (fun var =>
      (markdown (.dict var.2) "help_markdown").map (Block.mk (.help var.1))) ++
    ((markdown (catalogUi catalog) "footer_markdown").map (Block.mk .footer)).toList

def sourceOf (catalog : AcceptedCatalog) (id : BlockId) : Option Text :=
  ((blocks catalog).find? fun block => block.id = id).map (·.source)

end Blocks

section Cache

variable (sha256 : Bytes → Bytes) (sanitizeMarkdown : Text → Text → Text) (depth : Nat)

def hashOfBlob (blob : Text) : Text :=
  (hexdigest (sha256 (utf8 blob))).take 8

def computePublishHash (catalog : AcceptedCatalog) : Except Json.Error Text := do
  let blob ← Json.dumpsSorted depth catalog.value
  .ok (hashOfBlob sha256 blob)

abbrev Cache := List ((Text × Text × Text) × Text)

def renderBlock (app publishHash : Text) (block : Block) (cache : Cache) : Text × Cache :=
  Memo.visit cache (app, publishHash, block.id.text) (sanitizeMarkdown block.source app)

structure Rendered where
  app : Text
  id : BlockId
  html : Text
deriving DecidableEq, Repr

def renderBlocks (app publishHash : Text) : List Block → Cache → List Rendered × Cache
  | [], cache => ([], cache)
  | block :: rest, cache =>
      let (html, cache) := renderBlock sanitizeMarkdown app publishHash block cache
      let (others, cache) := renderBlocks app publishHash rest cache
      (⟨app, block.id, html⟩ :: others, cache)

structure Process where
  published : Text → Option AcceptedCatalog
  cache : Cache

def Process.start : Process := ⟨fun _ => none, []⟩

-- A page may fail with only its first blocks rendered.
inductive PageEvent
  | publish (app : Text) (catalog : AcceptedCatalog)
  | render (app : Text) (cut : Nat)

def publishedAfter (published : Text → Option AcceptedCatalog) :
    PageEvent → Text → Option AcceptedCatalog
  | .publish app catalog => fun other => if other = app then some catalog else published other
  | .render _ _ => published

-- `render_page`, as far as it asks for blocks. No page comes of a catalog without a dump.
def renderPage (app : Text) (cut : Nat) (catalog : AcceptedCatalog) (cache : Cache) :
    List Rendered × Cache :=
  match computePublishHash sha256 depth catalog with
  | .error _ => ([], cache)
  | .ok publishHash =>
      renderBlocks sanitizeMarkdown app publishHash ((blocks catalog).take cut) cache

def Process.rendered (process : Process) : PageEvent → List Rendered × Cache
  | .publish _ _ => ([], process.cache)
  | .render app cut =>
      match process.published app with
      | none => ([], process.cache)
      | some catalog => renderPage sha256 sanitizeMarkdown depth app cut catalog process.cache

def Process.apply (event : PageEvent) (process : Process) : Process where
  published := publishedAfter process.published event
  cache := (process.rendered sha256 sanitizeMarkdown depth event).2

-- What a page shows for a block is its source in the catalog of the moment, sanitized.
def Current (event : PageEvent) (process : Process) : Prop :=
  ∀ rendered ∈ (process.rendered sha256 sanitizeMarkdown depth event).1,
    ∃ catalog source, process.published rendered.app = some catalog ∧
      sourceOf catalog rendered.id = some source ∧
      rendered.html = sanitizeMarkdown source rendered.app

-- A block that a page asks for, with the dump of the catalog it is from.
structure Visit where
  app : Text
  blob : Text
  block : Block
deriving DecidableEq, Repr

def visitsOf (published : Text → Option AcceptedCatalog) : PageEvent → List Visit
  | .publish _ _ => []
  | .render app cut =>
      match published app with
      | none => []
      | some catalog =>
          match Json.dumpsSorted depth catalog.value with
          | .error _ => []
          | .ok blob => ((blocks catalog).take cut).map (Visit.mk app blob)

def visits : (Text → Option AcceptedCatalog) → List PageEvent → List Visit
  | _, [] => []
  | published, event :: rest =>
      visitsOf depth published event ++ visits (publishedAfter published event) rest

-- Two catalogs of one app differ, and what is left of their digests does not.
structure Collides (a b : Visit) : Prop where
  app : a.app = b.app
  id : a.block.id = b.block.id
  blob : a.blob ≠ b.blob
  hash : hashOfBlob sha256 a.blob = hashOfBlob sha256 b.blob

end Cache

section Sources

theorem BlockId.text_injective : Function.Injective BlockId.text := by
  intro a b h
  cases a with
  | header =>
      cases b with
      | header => rfl
      | _ => exact absurd h (by simp [BlockId.text])
  | footer =>
      cases b with
      | footer => rfl
      | _ => exact absurd h (by simp [BlockId.text])
  | help name =>
      cases b with
      | help other => exact congrArg BlockId.help (List.append_cancel_left h)
      | _ => exact absurd h (by simp [BlockId.text])

-- Where the source of a block stands in a catalog.
def sourceField (catalog : Value) : BlockId → Option Text
  | .header => (catalog.field "ui".toList).bind fun ui => markdown ui "header_markdown"
  | .footer => (catalog.field "ui".toList).bind fun ui => markdown ui "footer_markdown"
  | .help name => (catalog.field "vars".toList).bind fun vars =>
      (vars.field name).bind fun var => markdown var "help_markdown"

theorem markdown_falsy {mapping : Value} (h : mapping.truthy = false) (name : String) :
    markdown mapping name = none := by
  cases mapping with
  | dict pairs =>
      cases pairs with
      | nil => rfl
      | cons pair rest => exact absurd h (by simp [Value.truthy])
  | _ => rfl

theorem markdown_catalogUi (catalog : AcceptedCatalog) (name : String) :
    markdown (catalogUi catalog) name =
      (catalog.value.field "ui".toList).bind fun ui => markdown ui name := by
  change _ = (Value.lookup catalog.pairs "ui".toList).bind _
  unfold catalogUi
  cases Value.lookup catalog.pairs "ui".toList with
  | none => rfl
  | some ui =>
      cases htruthy : ui.truthy with
      | true => simp [htruthy]
      | false =>
          simp only [htruthy, Bool.false_eq_true, if_false, Option.bind_some]
          rw [markdown_falsy htruthy]
          rfl

theorem lookup_of_customerFacing {vars : Value} {name : Text} {var : List (Value × Value)}
    (hclean : Json.Clean vars) (h : (name, var) ∈ customerFacingVars vars) :
    vars.field name = some (.dict var) := by
  cases vars with
  | dict pairs =>
      obtain ⟨-, hdistinct, -⟩ := hclean.pairs
      obtain ⟨⟨key, value⟩, hmem, hvar⟩ := List.mem_filterMap.mp h
      refine Value.lookup_of_mem hdistinct ?_
      cases key with
      | str text =>
          cases value with
          | dict fields =>
              simp only at hvar
              split at hvar
              · obtain ⟨rfl, rfl⟩ := Prod.mk.inj (Option.some.inj hvar)
                exact hmem
              · cases hvar
          | _ => cases hvar
      | _ => cases hvar
  | _ => exact absurd h List.not_mem_nil

theorem clean_field {value found : Value} {key : Text} (hclean : Json.Clean value)
    (h : value.field key = some found) : Json.Clean found := by
  cases value with
  | dict pairs => exact hclean.pairs.2.2 _ (Value.mem_of_lookup h)
  | _ => cases h

theorem clean_catalogVars (catalog : AcceptedCatalog) :
    Json.Clean (catalogVars (some catalog.pairs)) := by
  have hempty : Json.Clean (.dict []) := .dict (by simp) List.nodup_nil (by simp)
  unfold catalogVars
  simp only [Option.getD_some]
  cases hlookup : Value.lookup catalog.pairs "vars".toList with
  | none => exact hempty
  | some vars =>
      cases htruthy : vars.truthy with
      | true => simpa [htruthy] using clean_field catalog.clean hlookup
      | false => simpa [htruthy] using hempty

theorem field_catalogVars {catalog : AcceptedCatalog} {name : Text} {var : Value}
    (h : (catalogVars (some catalog.pairs)).field name = some var) :
    ((catalog.value.field "vars".toList).bind fun vars => vars.field name) = some var := by
  change ((Value.lookup catalog.pairs "vars".toList).bind _) = _
  unfold catalogVars at h
  simp only [Option.getD_some] at h
  cases hlookup : Value.lookup catalog.pairs "vars".toList with
  | none =>
      rw [hlookup] at h
      cases h
  | some vars =>
      rw [hlookup] at h
      cases htruthy : vars.truthy with
      | true => simpa [htruthy] using h
      | false =>
          simp only [htruthy, Bool.false_eq_true, if_false] at h
          cases h

theorem sourceField_of_mem {catalog : AcceptedCatalog} {block : Block}
    (h : block ∈ blocks catalog) : sourceField catalog.value block.id = some block.source := by
  rw [blocks, List.mem_append, List.mem_append] at h
  rcases h with (hheader | hhelp) | hfooter
  · obtain ⟨source, hsource, rfl⟩ := Option.map_eq_some_iff.mp (Option.mem_toList.mp hheader)
    rw [← hsource, markdown_catalogUi]
    rfl
  · obtain ⟨⟨name, var⟩, hvar, hblock⟩ := List.mem_filterMap.mp hhelp
    obtain ⟨source, hsource, rfl⟩ := Option.map_eq_some_iff.mp hblock
    have hfield := lookup_of_customerFacing (clean_catalogVars catalog) hvar
    have hfound := field_catalogVars hfield
    change (_ : Option Value).bind _ = _
    rw [Option.bind_eq_some_iff] at hfound ⊢
    obtain ⟨vars, hvars, hname⟩ := hfound
    refine ⟨vars, hvars, ?_⟩
    rw [hname]
    exact hsource
  · obtain ⟨source, hsource, rfl⟩ := Option.map_eq_some_iff.mp (Option.mem_toList.mp hfooter)
    rw [← hsource, markdown_catalogUi]
    rfl

theorem sourceOf_of_mem {catalog : AcceptedCatalog} {block : Block}
    (h : block ∈ blocks catalog) : sourceOf catalog block.id = some block.source := by
  have hsome : ((blocks catalog).find? fun other => other.id = block.id).isSome := by
    rw [List.find?_isSome]
    exact ⟨block, h, by simp⟩
  obtain ⟨other, hother⟩ := Option.isSome_iff_exists.mp hsome
  have hid : other.id = block.id := by
    simpa using List.find?_some hother
  have hsame := sourceField_of_mem (List.mem_of_find?_eq_some hother)
  rw [hid, sourceField_of_mem h] at hsame
  unfold sourceOf
  rw [hother, Option.map_some, Option.some.inj hsame]

theorem markdown_canon {mapping : Value} (hclean : Json.Clean mapping) (depth : Nat)
    (name : String) : markdown (Json.canon depth mapping) name = markdown mapping name := by
  unfold markdown
  rw [hclean.field_canon]
  cases mapping.field name.toList with
  | none => rfl
  | some found =>
      rw [Option.map_some]
      cases depth - 1 with
      | zero => rfl
      | succ inner =>
          cases found with
          | _ => rfl

-- The order of the keys does not matter to the sources.
theorem sourceField_canon {catalog : Value} (hclean : Json.Clean catalog) (depth : Nat)
    (id : BlockId) : sourceField (Json.canon depth catalog) id = sourceField catalog id := by
  have hui (name : String) :
      (((Json.canon depth catalog).field "ui".toList).bind fun ui => markdown ui name) =
        (catalog.field "ui".toList).bind fun ui => markdown ui name := by
    rw [hclean.field_canon]
    cases hfield : catalog.field "ui".toList with
    | none => rfl
    | some ui => exact markdown_canon (clean_field hclean hfield) _ name
  cases id with
  | header => exact hui "header_markdown"
  | footer => exact hui "footer_markdown"
  | help name =>
      change (((Json.canon depth catalog).field "vars".toList).bind fun vars =>
        (vars.field name).bind fun var => markdown var "help_markdown") = _
      rw [hclean.field_canon, sourceField]
      cases hfield : catalog.field "vars".toList with
      | none => rfl
      | some vars =>
          have hvars := clean_field hclean hfield
          rw [Option.map_some, Option.bind_some, Option.bind_some, hvars.field_canon]
          cases hvar : vars.field name with
          | none => rfl
          | some var => exact markdown_canon (clean_field hvars hvar) _ "help_markdown"

theorem AcceptedCatalog.clean_value (catalog : AcceptedCatalog) : Json.Clean catalog.value :=
  catalog.clean

-- Catalogs with one dump have one source for a block.
theorem source_of_dump {a b : AcceptedCatalog} {depth : Nat} {blob : Text} {block other : Block}
    (ha : Json.dumpsSorted depth a.value = .ok blob)
    (hb : Json.dumpsSorted depth b.value = .ok blob) (hblock : block ∈ blocks a)
    (hother : other ∈ blocks b) (hid : block.id = other.id) : block.source = other.source := by
  have hcanon := a.clean_value.canon_eq b.clean_value ha hb
  have hleft := sourceField_of_mem hblock
  have hright := sourceField_of_mem hother
  rw [← sourceField_canon b.clean_value depth, ← hcanon, sourceField_canon a.clean_value,
    ← hid] at hright
  exact Option.some.inj (hleft.symm.trans hright)

end Sources

section Runs

variable {sha256 : Bytes → Bytes} {sanitizeMarkdown : Text → Text → Text} {depth : Nat}

-- A visit as the table of kept answers sees it.
def Visit.entry (sha256 : Bytes → Bytes) (sanitizeMarkdown : Text → Text → Text) (v : Visit) :
    (Text × Text × Text) × Text :=
  ((v.app, hashOfBlob sha256 v.blob, v.block.id.text), sanitizeMarkdown v.block.source v.app)

def entries (sha256 : Bytes → Bytes) (sanitizeMarkdown : Text → Text → Text) (vs : List Visit) :
    Cache :=
  vs.map (Visit.entry sha256 sanitizeMarkdown)

theorem renderBlocks_cache (app blob : Text) (bs : List Block) (cache : Cache) :
    (renderBlocks sanitizeMarkdown app (hashOfBlob sha256 blob) bs cache).2 =
      Memo.tableAfter cache (entries sha256 sanitizeMarkdown (bs.map (Visit.mk app blob))) := by
  induction bs generalizing cache with
  | nil => rfl
  | cons block rest ih => exact ih _

-- The blocks of one page, each with a source in the catalog.
theorem renderBlocks_current {catalog : AcceptedCatalog} {published : Text → Option AcceptedCatalog}
    (app blob : Text) (hpublished : published app = some catalog) (bs : List Block)
    (hbs : ∀ block ∈ bs, block ∈ blocks catalog) (cache : Cache) :
    (∀ rendered ∈ (renderBlocks sanitizeMarkdown app (hashOfBlob sha256 blob) bs cache).1,
      ∃ catalog source, published rendered.app = some catalog ∧
        sourceOf catalog rendered.id = some source ∧
        rendered.html = sanitizeMarkdown source rendered.app) ↔
      Memo.answers cache (entries sha256 sanitizeMarkdown (bs.map (Visit.mk app blob))) =
        (entries sha256 sanitizeMarkdown (bs.map (Visit.mk app blob))).map Prod.snd := by
  induction bs generalizing cache with
  | nil => simp [renderBlocks, entries]
  | cons block rest ih =>
      rw [List.forall_mem_cons] at hbs
      have hsource := sourceOf_of_mem hbs.1
      let kept := renderBlock sanitizeMarkdown app (hashOfBlob sha256 blob) block cache
      change (∀ rendered ∈ _ :: _, _) ↔ kept.1 :: _ = _ :: _
      rw [List.forall_mem_cons, List.cons.injEq]
      refine and_congr ?_ (ih hbs.2 kept.2)
      constructor
      · rintro ⟨other, source, hother, hfound, hhtml⟩
        obtain rfl := Option.some.inj (hpublished.symm.trans hother)
        obtain rfl := Option.some.inj (hsource.symm.trans hfound)
        exact hhtml
      · intro hhtml
        exact ⟨catalog, block.source, hpublished, hsource, hhtml⟩

theorem renderPage_ok {catalog : AcceptedCatalog} {blob : Text} (app : Text) (cut : Nat)
    (cache : Cache) (h : Json.dumpsSorted depth catalog.value = .ok blob) :
    renderPage sha256 sanitizeMarkdown depth app cut catalog cache =
      renderBlocks sanitizeMarkdown app (hashOfBlob sha256 blob) ((blocks catalog).take cut)
        cache := by
  unfold renderPage computePublishHash
  rw [h]
  rfl

theorem renderPage_error {catalog : AcceptedCatalog} {e : Json.Error} (app : Text) (cut : Nat)
    (cache : Cache) (h : Json.dumpsSorted depth catalog.value = .error e) :
    renderPage sha256 sanitizeMarkdown depth app cut catalog cache = ([], cache) := by
  unfold renderPage computePublishHash
  rw [h]
  rfl

-- What one event does to the cache, and when what it shows is current.
theorem cache_apply (event : PageEvent) (process : Process) :
    (process.apply sha256 sanitizeMarkdown depth event).cache =
      Memo.tableAfter process.cache
        (entries sha256 sanitizeMarkdown (visitsOf depth process.published event)) := by
  unfold Process.apply Process.rendered visitsOf
  cases event with
  | publish app catalog => rfl
  | render app cut =>
      cases hpublished : process.published app with
      | none => simp [hpublished, entries]
      | some catalog =>
          cases hdumps : Json.dumpsSorted depth catalog.value with
          | error e => simp [hpublished, hdumps, renderPage_error _ _ _ hdumps, entries]
          | ok blob =>
              simp only [hpublished, hdumps, renderPage_ok _ _ _ hdumps]
              exact renderBlocks_cache app blob _ _

theorem current_iff (event : PageEvent) (process : Process) :
    Current sha256 sanitizeMarkdown depth event process ↔
      Memo.answers process.cache
          (entries sha256 sanitizeMarkdown (visitsOf depth process.published event)) =
        (entries sha256 sanitizeMarkdown (visitsOf depth process.published event)).map
          Prod.snd := by
  unfold Current Process.rendered visitsOf
  cases event with
  | publish app catalog => simp [entries]
  | render app cut =>
      cases hpublished : process.published app with
      | none => simp [hpublished, entries]
      | some catalog =>
          cases hdumps : Json.dumpsSorted depth catalog.value with
          | error e => simp [hpublished, hdumps, renderPage_error _ _ _ hdumps, entries]
          | ok blob =>
              simp only [hpublished, hdumps, renderPage_ok _ _ _ hdumps]
              exact renderBlocks_current app blob hpublished _
                (fun _ hblock => List.mem_of_mem_take hblock) _

-- Put together: by induction on the run, it is one run of the table of kept answers.
theorem throughout_current_iff (events : List PageEvent) (process : Process) :
    Throughout (Process.apply sha256 sanitizeMarkdown depth)
        (Current sha256 sanitizeMarkdown depth) events process ↔
      Memo.answers process.cache
          (entries sha256 sanitizeMarkdown (visits depth process.published events)) =
        (entries sha256 sanitizeMarkdown (visits depth process.published events)).map
          Prod.snd := by
  induction events generalizing process with
  | nil => simp [Throughout, visits, entries]
  | cons event rest ih =>
      rw [Throughout, ih, current_iff, cache_apply, visits]
      change _ ∧ _ ↔ Memo.answers _ (List.map _ (_ ++ _)) = (List.map _ (_ ++ _)).map Prod.snd
      rw [List.map_append, List.map_append, Memo.answers_append]
      constructor
      · intro hboth
        exact congrArg₂ (· ++ ·) hboth.1 hboth.2
      · intro h
        exact List.append_inj h (by simp [entries])

-- Every visit is to a block of a catalog with that dump.
theorem mem_visits {published : Text → Option AcceptedCatalog} {events : List PageEvent}
    {v : Visit} (h : v ∈ visits depth published events) :
    ∃ catalog, Json.dumpsSorted depth catalog.value = .ok v.blob ∧ v.block ∈ blocks catalog := by
  induction events generalizing published with
  | nil => exact absurd h List.not_mem_nil
  | cons event rest ih =>
      rcases List.mem_append.mp h with hfirst | hrest
      · cases event with
        | publish app catalog => exact absurd hfirst List.not_mem_nil
        | render app cut =>
            unfold visitsOf at hfirst
            cases hpublished : published app with
            | none => simp [hpublished] at hfirst
            | some catalog =>
                cases hdumps : Json.dumpsSorted depth catalog.value with
                | error e => simp [hpublished, hdumps] at hfirst
                | ok blob =>
                    simp only [hpublished, hdumps] at hfirst
                    obtain ⟨block, hblock, rfl⟩ := List.mem_map.mp hfirst
                    exact ⟨catalog, hdumps, List.mem_of_mem_take hblock⟩
      · exact ih hrest

-- One key stands for one source, but where what is left of two digests collides.
theorem entry_iff_collides {a b : Visit} {published : Text → Option AcceptedCatalog}
    {events : List PageEvent} (ha : a ∈ visits depth published events)
    (hb : b ∈ visits depth published events) :
    ((a.entry sha256 sanitizeMarkdown).1 = (b.entry sha256 sanitizeMarkdown).1 →
        (a.entry sha256 sanitizeMarkdown).2 = (b.entry sha256 sanitizeMarkdown).2) ↔
      (Collides sha256 a b →
        sanitizeMarkdown a.block.source a.app = sanitizeMarkdown b.block.source b.app) := by
  constructor
  · intro h hcollides
    apply h
    unfold Visit.entry
    rw [hcollides.app, hcollides.id, hcollides.hash]
  · intro h hkey
    obtain ⟨happ, hrest⟩ := Prod.mk.inj hkey
    obtain ⟨hhash, htext⟩ := Prod.mk.inj hrest
    have hid : a.block.id = b.block.id := BlockId.text_injective htext
    by_cases hblob : a.blob = b.blob
    · obtain ⟨first, hfirst, hblock⟩ := mem_visits ha
      obtain ⟨second, hsecond, hother⟩ := mem_visits hb
      rw [← hblob] at hsecond
      have hsource := source_of_dump hfirst hsecond hblock hother hid
      change sanitizeMarkdown _ _ = sanitizeMarkdown _ _
      rw [hsource, happ]
    · exact h ⟨happ, hid, hblob, hhash⟩

-- Over whole runs: the cache is stale just where two catalogs of one app share the eight
-- digits and a block that they have both shown reads differently.
theorem never_stale_iff (sha256 : Bytes → Bytes) (sanitizeMarkdown : Text → Text → Text)
    (depth : Nat) (events : List PageEvent) :
    Throughout (Process.apply sha256 sanitizeMarkdown depth)
        (Current sha256 sanitizeMarkdown depth) events Process.start ↔
      (visits depth Process.start.published events).Pairwise fun a b => Collides sha256 a b →
        sanitizeMarkdown a.block.source a.app = sanitizeMarkdown b.block.source b.app := by
  rw [throughout_current_iff]
  change Memo.answers [] _ = _ ↔ _
  rw [Memo.answers_fresh_iff, entries, List.pairwise_map]
  exact List.Pairwise.iff_of_mem fun ha hb => entry_iff_collides ha hb

end Runs

section Collision

def headerPairs (header : Text) : List (Value × Value) :=
  [(.str "app".toList, .str "demo".toList),
    (.str "vars".toList, .dict [(.str "x".toList,
      .dict [(.str "type".toList, .str "int".toList),
        (.str "scope".toList, .list [.str "app".toList])])]),
    (.str "ui".toList, .dict [(.str "header_markdown".toList, .str header)])]

theorem clean_headerPairs (header : Text) : Json.Clean (.dict (headerPairs header)) := by
  have hone {key value : Value} (hkey : Json.isStrOrBytes key) (hvalue : Json.Clean value) :
      Json.Clean (.dict [(key, value)]) :=
    .dict (by simpa using hkey) (List.nodup_singleton key) (by simpa using hvalue)
  have hscope : Json.Clean (.list [.str "app".toList]) := .list (by simp [Json.Clean.str])
  have hvar : Json.Clean (.dict [(.str "type".toList, .str "int".toList),
      (.str "scope".toList, .list [.str "app".toList])]) := by
    refine .dict (by simp [Json.isStrOrBytes]) (by simp) ?_
    simp only [List.forall_mem_cons, List.not_mem_nil, false_implies, implies_true, and_true]
    exact ⟨.str _, hscope⟩
  refine .dict (by simp [headerPairs, Json.isStrOrBytes]) (by simp [headerPairs]) ?_
  simp only [headerPairs, List.forall_mem_cons, List.not_mem_nil, false_implies, implies_true,
    and_true]
  exact ⟨.str _, hone rfl hvar, hone rfl (.str _)⟩

def headerCatalog (header : Text) : AcceptedCatalog where
  pairs := headerPairs header
  clean := clean_headerPairs header

def headerBlob (header : Text) : Text :=
  "\x7b\"app\": \"demo\", \"ui\": \x7b\"header_markdown\": \"".toList ++ header ++
    "\"\x7d, \"vars\": \x7b\"x\": \x7b\"scope\": [\"app\"], \"type\": \"int\"\x7d\x7d\x7d".toList

example : (["w4399".toList, "w68377".toList].all fun header =>
    (Json.dumpsSorted 1000 (headerCatalog header).value).toOption = some (headerBlob header)) =
      true := by decide +kernel

-- SHA-256 of these two dumps; of anything else, a digest that no two share.
def headerDigest (bytes : Bytes) : Bytes :=
  if bytes = utf8 (headerBlob "w4399".toList) then
    [142, 189, 192, 233, 194, 119, 86, 219, 73, 255, 94, 22, 33, 121, 95, 224, 79, 237, 44, 52,
      156, 50, 98, 78, 51, 42, 135, 122, 181, 49, 55, 184]
  else if bytes = utf8 (headerBlob "w68377".toList) then
    [142, 189, 192, 233, 187, 11, 138, 98, 152, 27, 122, 244, 16, 70, 8, 98, 109, 88, 28, 161,
      203, 115, 188, 24, 200, 101, 11, 68, 228, 25, 95, 151]
  else 0 :: bytes

theorem headerDigest_injective : Function.Injective headerDigest := by
  intro a b h
  unfold headerDigest at h
  split at h
  · rename_i ha
    split at h
    · rename_i hb
      exact ha.trans hb.symm
    · split at h
      · exact absurd h (by decide)
      · exact absurd (List.cons.inj h).1 (by decide)
  · split at h
    · rename_i ha
      split at h
      · exact absurd h (by decide)
      · split at h
        · rename_i hb
          exact ha.trans hb.symm
        · exact absurd (List.cons.inj h).1 (by decide)
    · split at h
      · exact absurd (List.cons.inj h).1 (by decide)
      · split at h
        · exact absurd (List.cons.inj h).1 (by decide)
        · exact (List.cons.inj h).2

def paragraph (source _app : Text) : Text :=
  "<p>".toList ++ source ++ "</p>\n".toList

-- The second header comes up as the first.
theorem truncated_hash_serves_stale :
    Function.Injective headerDigest ∧
      ¬ Throughout (Process.apply headerDigest paragraph 1000) (Current headerDigest paragraph 1000)
        [.publish "demo".toList (headerCatalog "w4399".toList), .render "demo".toList 1,
          .publish "demo".toList (headerCatalog "w68377".toList), .render "demo".toList 1]
        Process.start := by
  refine ⟨headerDigest_injective, ?_⟩
  rw [throughout_current_iff]
  decide +kernel

end Collision

end Stra2us.Page
