import Stra2us.Publish.Layout
import Stra2us.Publish.Script

namespace Stra2us.Publish

open Foundation Server

section Attempts

-- One publish: what it is of, and how the calls it makes fare.
structure Attempt where
  assets : List LoadedAsset
  yamlText : Text
  fates : List Fate

namespace Attempt

-- What the lint sees to before anything is sent.
def Linted (a : Attempt) : Prop :=
  (∀ asset ∈ a.assets, LintedName asset.filename) ∧
    (a.assets.map LoadedAsset.filename).Nodup

def playOn (app : Text) (s : Store) (a : Attempt) :
    Option (Except Exn PublishResult × List Fate) × Store :=
  (publishAssets app a.assets a.yamlText).playOn a.fates s

def Completes (app : Text) (s : Store) (a : Attempt) : Prop :=
  ∃ result left, (a.playOn app s).1 = some (.ok result, left)

def after (app : Text) (s : Store) (a : Attempt) : Store :=
  (a.playOn app s).2

-- The listing it goes by, read with its first call.
def listing (app : Text) (s : Store) (a : Attempt) : List Text :=
  match a.fates with
  | [] => []
  | fate :: _ => listingRead fate s app

end Attempt

def reached (app : Text) (s : Store) (history : List Attempt) : Store :=
  history.foldl (Attempt.after app) s

-- The app has not been published to.
def Unpublished (s : Store) (app : Text) : Prop :=
  (∀ n, s.get (kvKey (bytesKey app n)) = none) ∧ s.get (kvKey (indexKey app)) = none

def Stored (s : Store) (key : Text) (content : Content) : Prop :=
  ∃ bytes, Msgpack.packb content.toValue = some bytes ∧ s.get (kvKey key) = some bytes

-- The names of the two records of a file.
def NameOf (filename n : Text) : Prop :=
  n = filename ∨ n = filename ++ ".meta".toList

-- Exactly the bundle is there, and the index lists it.
structure Converged (s : Store) (app : Text) (assets : List LoadedAsset) : Prop where
  contents : ∀ a ∈ assets, Stored s (bytesKey app a.filename) (.bytes a.bytesPayload) ∧
    Stored s (metaKey app a.filename) (.sidecar a.contentType a.sha256Hex a.sizeBytes)
  only : ∀ n, (s.get (kvKey (bytesKey app n))).isSome → ∃ a ∈ assets, NameOf a.filename n
  listed : ∃ names, Stored s (indexKey app) (.listing names) ∧
    names.Perm (assets.map LoadedAsset.filename)

-- Every record there is of a file that is published, or of one that the listing has.
def Covered (s : Store) (app : Text) (a : Attempt) : Prop :=
  ∀ n, (s.get (kvKey (bytesKey app n))).isSome →
    (∃ asset ∈ a.assets, NameOf asset.filename n) ∨ ∃ f ∈ a.listing app s, NameOf f n

end Attempts

section Names

variable {app f g n key : Text} {assets : List LoadedAsset} {yamlText : Text}
  {names oldListing newListing : List Text}

theorem nameOf_plain (hf : LintedName f) (h : NameOf f n) : ':' ∉ n := by
  rcases h with rfl | rfl
  · exact colon_not_mem hf
  · intro hmem
    rcases List.mem_append.mp hmem with hmem | hmem
    · exact colon_not_mem hf hmem
    · exact absurd hmem (by decide)

theorem nameOf_unique (hf : LintedName f) (hg : LintedName g) (h : NameOf f n) (h' : NameOf g n) :
    f = g := by
  rcases h with rfl | rfl
  · rcases h' with rfl | hmeta
    · rfl
    · exact absurd hmeta (ne_append_meta hf g)
  · rcases h' with hmeta | hmeta
    · exact absurd hmeta.symm (ne_append_meta hg f)
    · exact List.append_cancel_right hmeta

theorem bytesKey_ne_flag (hn : ':' ∉ n) (m : Text) :
    bytesKey app n ≠ bytesKey app m ++ ":enc".toList := by
  rw [bytesKey_flag, Ne, bytesKey_inj]
  rintro rfl
  exact hn (List.mem_append_right _ (by decide))

theorem mem_dropKeys : key ∈ dropKeys app names ↔ ∃ f ∈ names, ∃ n, NameOf f n ∧
    key = bytesKey app n := by
  simp only [dropKeys, List.mem_flatMap, List.mem_cons, List.not_mem_nil, or_false, metaKey_eq]
  constructor
  · rintro ⟨f, hf, rfl | rfl⟩
    · exact ⟨f, hf, f, .inl rfl, rfl⟩
    · exact ⟨f, hf, _, .inr rfl, rfl⟩
  · rintro ⟨f, hf, n, rfl | rfl, rfl⟩
    · exact ⟨_, hf, .inl rfl⟩
    · exact ⟨_, hf, .inr rfl⟩

theorem sorted_perm (names : List Text) : (sorted names).Perm names :=
  List.perm_insertionSort _ _

theorem mem_dropped : f ∈ dropped oldListing newListing ↔ f ∈ oldListing ∧ f ∉ newListing := by
  rw [dropped, (sorted_perm _).mem_iff]
  simp

theorem mem_listingOf : f ∈ listingOf assets ↔ ∃ a ∈ assets, a.filename = f := by
  rw [listingOf, (sorted_perm _).mem_iff, List.mem_map]

-- What a publish writes.
theorem mem_script {put : Text × Content} (h : put ∈ script app assets yamlText) :
    (∃ a ∈ assets, put = (bytesKey app a.filename, .bytes a.bytesPayload) ∨
      put = (bytesKey app (a.filename ++ ".meta".toList),
        .sidecar a.contentType a.sha256Hex a.sizeBytes)) ∨
    put = (yamlKey app, .yaml yamlText) ∨ put = (indexKey app, .listing (listingOf assets)) := by
  rcases List.mem_append.mp h with h | h
  · obtain ⟨a, ha, hput⟩ := List.mem_flatMap.mp h
    simp only [List.mem_cons, List.not_mem_nil, or_false, metaKey_eq] at hput
    exact .inl ⟨a, ha, hput⟩
  · simp only [commits, List.mem_cons, List.not_mem_nil, or_false] at h
    exact .inr h

theorem bytes_mem_script {a : LoadedAsset} (ha : a ∈ assets) :
    (bytesKey app a.filename, .bytes a.bytesPayload) ∈ script app assets yamlText :=
  List.mem_append_left _ (List.mem_flatMap.mpr ⟨a, ha, by simp⟩)

theorem meta_mem_script {a : LoadedAsset} (ha : a ∈ assets) :
    (metaKey app a.filename, .sidecar a.contentType a.sha256Hex a.sizeBytes) ∈
      script app assets yamlText :=
  List.mem_append_left _ (List.mem_flatMap.mpr ⟨a, ha, by simp⟩)

theorem yaml_mem_script : (yamlKey app, .yaml yamlText) ∈ script app assets yamlText :=
  List.mem_append_right _ (by simp [commits])

theorem index_mem_script :
    (indexKey app, .listing (listingOf assets)) ∈ script app assets yamlText :=
  List.mem_append_right _ (by simp [commits])

-- The keys it writes under.
theorem key_of_mem_script {put : Text × Content} (h : put ∈ script app assets yamlText) :
    (∃ a ∈ assets, ∃ n, NameOf a.filename n ∧ put.1 = bytesKey app n) ∨
      put.1 = yamlKey app ∨ put.1 = indexKey app := by
  rcases mem_script h with ⟨a, ha, rfl | rfl⟩ | rfl | rfl
  · exact .inl ⟨a, ha, _, .inl rfl, rfl⟩
  · exact .inl ⟨a, ha, _, .inr rfl, rfl⟩
  · exact .inr (.inl rfl)
  · exact .inr (.inr rfl)

end Names

section Attempt

variable {app key n : Text} {s : Store} {a : Attempt}

-- The writes that an attempt gets done.
def Attempt.writes (app : Text) (a : Attempt) : List (Text × Bytes) :=
  (advance a.fates.tail (script app a.assets a.yamlText)).1

theorem mem_writes {write : Text × Bytes} (h : write ∈ a.writes app) :
    ∃ content, (write.1, content) ∈ script app a.assets a.yamlText ∧
      Msgpack.packb content.toValue = some write.2 :=
  mem_advance h

-- What an attempt leaves under a key, wherever it stops.
theorem Attempt.after_cases (app : Text) (s : Store) (a : Attempt) (key : Text) :
    (a.after app s).get (kvKey key) = (writeAll s (a.writes app)).get (kvKey key) ∨
      ((a.after app s).get (kvKey key) = none ∧
        (∃ rest, (advance a.fates.tail (script app a.assets a.yamlText)).2 = some rest) ∧
        ∃ k ∈ dropKeys app (dropped (a.listing app s) (listingOf a.assets)),
          key = k ∨ key = k ++ ":enc".toList) := by
  obtain ⟨assets, yamlText, fates⟩ := a
  cases fates with
  | nil =>
      refine .inl ?_
      have hnone : advance [] (script app assets yamlText) = ([], none) := by
        cases hscript : script app assets yamlText with
        | nil => exact absurd hscript (by simp [script, commits])
        | cons put plan => rfl
      rw [writes, List.tail_nil, hnone]
      simp only [after, playOn, publishAssets_eq]
      rfl
  | cons fate fates =>
      cases hadvance : (advance fates (script app assets yamlText)).2 with
      | none =>
          refine .inl ?_
          exact congrArg (fun s : Store => s.get (kvKey key)) (publish_stopped hadvance).2
      | some rest =>
          have hplay := @publish_collects app assets yamlText fates s fate rest hadvance
          rw [after, playOn, hplay, collects_store]
          rcases collect_cases (dropped (listingRead fate s app) (listingOf assets)) rest _ key with
            hsame | ⟨hnone, hwhich⟩
          · exact .inl hsame
          · exact .inr ⟨hnone, ⟨rest, hadvance⟩, hwhich⟩

end Attempt

section Runs

variable {app key n f : Text} {s : Store} {a : Attempt} {history : List Attempt}

-- No flag is set among the assets, and the index is a listing of the lint's making.
structure Tidy (s : Store) (app : Text) : Prop where
  plain : ∀ n, ':' ∈ n → s.get (kvKey (bytesKey app n)) = none
  indexed : s.get (kvKey (indexKey app)) = none ∨
    ∃ names, (∀ f ∈ names, LintedName f) ∧ Stored s (indexKey app) (.listing names)

-- The index alone: it is missing, or a listing of the lint's making.
def Indexed (s : Store) (app : Text) : Prop :=
  s.get (kvKey (indexKey app)) = none ∨
    ∃ names, (∀ f ∈ names, LintedName f) ∧ Stored s (indexKey app) (.listing names)

theorem tidy_unpublished (h : Unpublished s app) : Tidy s app :=
  ⟨fun n _ => h.1 n, .inl h.2⟩

theorem fetch_stored {content : Content} (h : Stored s key content) :
    fetch s key = .ok (some content.toValue) := by
  obtain ⟨bytes, hpack, hget⟩ := h
  rw [fetch, hget]
  dsimp only
  rw [Content.unpackb_toValue hpack]
  dsimp only
  rw [isMissing_toValue]
  rfl

theorem listing_linted (h : Indexed s app) (hf : f ∈ a.listing app s) : LintedName f := by
  rw [Attempt.listing] at hf
  split at hf
  · cases hf
  · next fate fates hfates =>
      rw [listingRead] at hf
      by_cases hfate : fate = .works
      · rw [if_pos hfate] at hf
        rcases h with hnone | ⟨names, hnames, hstored⟩
        · rw [fetch, hnone] at hf
          cases hf
        · rw [fetch_stored hstored] at hf
          simp only [Content.ofValue_toValue] at hf
          exact hnames f hf
      · rw [if_neg hfate] at hf
        cases hf

theorem linted_listingOf (h : a.Linted) (hf : f ∈ listingOf a.assets) : LintedName f := by
  obtain ⟨asset, hasset, rfl⟩ := mem_listingOf.mp hf
  exact h.1 asset hasset

theorem tidy_after (h : Tidy s app) (ha : a.Linted) : Tidy (a.after app s) app := by
  constructor
  · intro n hcolon
    rcases a.after_cases app s (bytesKey app n) with hafter | ⟨hafter, -⟩
    · rw [hafter]
      rcases get_writeAll_cases s (a.writes app) (bytesKey app n) with
        hsame | ⟨hnone, -⟩ | ⟨bytes, hmem, -⟩
      · rw [hsame]
        exact h.plain n hcolon
      · exact hnone
      · obtain ⟨content, hput, -⟩ := mem_writes hmem
        rcases key_of_mem_script hput with ⟨asset, hasset, m, hm, hkey⟩ | hkey | hkey
        · rw [bytesKey_inj.mp hkey] at hcolon
          exact absurd hcolon (nameOf_plain (ha.1 asset hasset) hm)
        · exact absurd hkey bytesKey_ne_yamlKey
        · exact absurd hkey bytesKey_ne_indexKey
    · exact hafter
  · rcases a.after_cases app s (indexKey app) with hafter | ⟨hafter, -⟩
    · simp only [Stored, hafter]
      rcases get_writeAll_cases s (a.writes app) (indexKey app) with
        hsame | ⟨hnone, -⟩ | ⟨bytes, hmem, hget⟩
      · rw [hsame]
        exact h.indexed
      · exact .inl hnone
      · obtain ⟨content, hput, hpack⟩ := mem_writes hmem
        refine .inr ⟨listingOf a.assets, fun f => linted_listingOf ha, bytes, ?_, hget⟩
        rcases mem_script hput with ⟨asset, -, hput | hput⟩ | hput | hput
        · exact absurd (congrArg Prod.fst hput).symm bytesKey_ne_indexKey
        · exact absurd (congrArg Prod.fst hput).symm bytesKey_ne_indexKey
        · exact absurd (congrArg Prod.fst hput) indexKey_ne_yamlKey
        · have hcontent : content = .listing (listingOf a.assets) := congrArg Prod.snd hput
          rw [hcontent] at hpack
          exact hpack
    · exact .inl hafter

theorem tidy_reached (h : Tidy s app) (hhistory : ∀ a ∈ history, a.Linted) :
    Tidy (reached app s history) app := by
  induction history generalizing s with
  | nil => exact h
  | cons a history ih =>
      exact ih (tidy_after h (hhistory a List.mem_cons_self))
        fun other hother => hhistory other (List.mem_cons_of_mem _ hother)

end Runs

section Completed

variable {app key n f : Text} {s : Store} {a : Attempt} {put put' : Text × Content}

-- Under one key it writes one thing,
theorem script_unique (ha : a.Linted) (h : put ∈ script app a.assets a.yamlText)
    (h' : put' ∈ script app a.assets a.yamlText) (hkey : put.1 = put'.1) : put = put' := by
  have hasset : ∀ b ∈ a.assets, ∀ c ∈ a.assets, b.filename = c.filename → b = c :=
    fun b hb c hc hname => List.inj_on_of_nodup_map ha.2 hb hc hname
  rcases mem_script h with ⟨b, hb, rfl | rfl⟩ | rfl | rfl
  · rcases mem_script h' with ⟨c, hc, rfl | rfl⟩ | rfl | rfl
    · rw [hasset b hb c hc (bytesKey_inj.mp hkey)]
    · exact absurd (bytesKey_inj.mp hkey) (ne_append_meta (ha.1 b hb) _)
    · exact absurd hkey bytesKey_ne_yamlKey
    · exact absurd hkey bytesKey_ne_indexKey
  · rcases mem_script h' with ⟨c, hc, rfl | rfl⟩ | rfl | rfl
    · exact absurd (bytesKey_inj.mp hkey).symm (ne_append_meta (ha.1 c hc) _)
    · rw [hasset b hb c hc (List.append_cancel_right (bytesKey_inj.mp hkey))]
    · exact absurd hkey bytesKey_ne_yamlKey
    · exact absurd hkey bytesKey_ne_indexKey
  · rcases mem_script h' with ⟨c, hc, rfl | rfl⟩ | rfl | rfl
    · exact absurd hkey.symm bytesKey_ne_yamlKey
    · exact absurd hkey.symm bytesKey_ne_yamlKey
    · rfl
    · exact absurd hkey.symm indexKey_ne_yamlKey
  · rcases mem_script h' with ⟨c, hc, rfl | rfl⟩ | rfl | rfl
    · exact absurd hkey.symm bytesKey_ne_indexKey
    · exact absurd hkey.symm bytesKey_ne_indexKey
    · exact absurd hkey indexKey_ne_yamlKey
    · rfl

-- and no key of it is the flag of another.
theorem script_apart (ha : a.Linted) (h : put ∈ script app a.assets a.yamlText)
    (h' : put' ∈ script app a.assets a.yamlText) : put.1 ≠ put'.1 ++ ":enc".toList := by
  rcases key_of_mem_script h with ⟨b, hb, n, hn, hkey⟩ | hkey | hkey
  · rw [hkey]
    rcases key_of_mem_script h' with ⟨c, hc, m, hm, hkey'⟩ | hkey' | hkey'
    · rw [hkey']
      exact bytesKey_ne_flag (nameOf_plain (ha.1 b hb) hn) m
    · rw [hkey']
      exact bytesKey_ne_yamlKey_flag
    · rw [hkey']
      exact bytesKey_ne_indexKey_flag
  · rw [hkey]
    rcases key_of_mem_script h' with ⟨c, hc, m, hm, hkey'⟩ | hkey' | hkey'
    · rw [hkey', bytesKey_flag]
      exact Ne.symm bytesKey_ne_yamlKey
    · rw [hkey']
      exact key_ne_flag _
    · rw [hkey']
      exact yamlKey_ne_indexKey_flag
  · rw [hkey]
    rcases key_of_mem_script h' with ⟨c, hc, m, hm, hkey'⟩ | hkey' | hkey'
    · rw [hkey', bytesKey_flag]
      exact Ne.symm bytesKey_ne_indexKey
    · rw [hkey']
      exact indexKey_ne_yamlKey_flag
    · rw [hkey']
      exact key_ne_flag _

-- The writes of a series that got through are still there at its end.
theorem writeAll_stored (ha : a.Linted) {content : Content} {bytes : Bytes}
    (hput : (key, content) ∈ script app a.assets a.yamlText)
    (hpack : Msgpack.packb content.toValue = some bytes) (hmem : (key, bytes) ∈ a.writes app) :
    (writeAll s (a.writes app)).get (kvKey key) = some bytes := by
  apply get_writeAll_of_mem hmem
  · intro write hwrite hkey
    obtain ⟨content', hput', hpack'⟩ := mem_writes hwrite
    have hsame := congrArg Prod.snd (script_unique ha hput hput' hkey.symm)
    dsimp only at hsame
    rw [← hsame, hpack] at hpack'
    exact (Option.some.inj hpack').symm
  · intro write hwrite
    obtain ⟨content', hput', -⟩ := mem_writes hwrite
    exact script_apart ha hput hput'

theorem completes_after (h : a.Completes app s) :
    (∃ rest, (advance a.fates.tail (script app a.assets a.yamlText)).2 = some rest) ∧
      a.after app s = removeAll (writeAll s (a.writes app))
        (dropKeys app (dropped (a.listing app s) (listingOf a.assets))) := by
  obtain ⟨result, left, houtcome⟩ := h
  obtain ⟨assets, yamlText, fates⟩ := a
  have hplay : (publishAssets app assets yamlText).playOn fates s =
      (some (.ok result, left), ((publishAssets app assets yamlText).playOn fates s).2) :=
    Prod.ext houtcome rfl
  obtain ⟨fate, rest, hfate, hadvance, hstore⟩ := publish_done hplay
  refine ⟨⟨rest, hadvance⟩, ?_⟩
  have hlisting : Attempt.listing app s ⟨assets, yamlText, fates⟩ = listingRead fate s app := by
    cases fates with
    | nil => cases hfate
    | cons first fates =>
        obtain rfl := Option.some.inj hfate
        rfl
  rw [hlisting]
  exact hstore

-- No record of the bundle is among those that are deleted.
theorem script_not_dropped (hs : Indexed s app) (ha : a.Linted)
    (h : put ∈ script app a.assets a.yamlText) {k : Text}
    (hk : k ∈ dropKeys app (dropped (a.listing app s) (listingOf a.assets))) :
    put.1 ≠ k ∧ put.1 ≠ k ++ ":enc".toList := by
  obtain ⟨f, hf, n, hn, rfl⟩ := mem_dropKeys.mp hk
  obtain ⟨hlisted, hnew⟩ := mem_dropped.mp hf
  have hlinted := listing_linted hs hlisted
  rcases key_of_mem_script h with ⟨b, hb, m, hm, hkey⟩ | hkey | hkey
  · rw [hkey]
    refine ⟨?_, bytesKey_ne_flag (nameOf_plain (ha.1 b hb) hm) n⟩
    intro hsame
    rw [bytesKey_inj.mp hsame] at hm
    exact hnew (mem_listingOf.mpr ⟨b, hb, nameOf_unique (ha.1 b hb) hlinted hm hn⟩)
  · rw [hkey, bytesKey_flag]
    exact ⟨Ne.symm bytesKey_ne_yamlKey, Ne.symm bytesKey_ne_yamlKey⟩
  · rw [hkey, bytesKey_flag]
    exact ⟨Ne.symm bytesKey_ne_indexKey, Ne.symm bytesKey_ne_indexKey⟩

-- A write that was done stands, also where deleting was begun.
theorem stored_of_written (hs : Indexed s app) (ha : a.Linted) {content : Content} {bytes : Bytes}
    (hput : (key, content) ∈ script app a.assets a.yamlText)
    (hpack : Msgpack.packb content.toValue = some bytes) (hmem : (key, bytes) ∈ a.writes app) :
    Stored (a.after app s) key content := by
  refine ⟨bytes, hpack, ?_⟩
  rcases a.after_cases app s key with hafter | ⟨-, -, k, hk, hkey⟩
  · rw [hafter]
    exact writeAll_stored ha hput hpack hmem
  · obtain ⟨hne, hflag⟩ := script_not_dropped hs ha hput hk
    rcases hkey with hkey | hkey
    · exact absurd hkey hne
    · exact absurd hkey hflag

theorem stored_after (hs : Indexed s app) (ha : a.Linted) (hdone : a.Completes app s)
    (h : put ∈ script app a.assets a.yamlText) : Stored (a.after app s) put.1 put.2 := by
  obtain ⟨⟨rest, hadvance⟩, -⟩ := completes_after hdone
  obtain ⟨bytes, hpack, hmem⟩ := advance_all hadvance h
  exact stored_of_written hs ha h hpack hmem

theorem dropped_after (hdone : a.Completes app s) (hf : f ∈ a.listing app s)
    (hnew : ∀ asset ∈ a.assets, asset.filename ≠ f) (hn : NameOf f n) :
    (a.after app s).get (kvKey (bytesKey app n)) = none := by
  rw [(completes_after hdone).2, get_removeAll, if_pos]
  refine .inl (mem_dropKeys.mpr ⟨f, mem_dropped.mpr ⟨hf, ?_⟩, n, hn, rfl⟩)
  intro hlisted
  obtain ⟨asset, hasset, hname⟩ := mem_listingOf.mp hlisted
  exact hnew asset hasset hname

-- What is neither of the bundle nor of the listing is not touched.
theorem kept_after (hdone : a.Completes app s) (hplain : ':' ∉ n)
    (hbundle : ∀ asset ∈ a.assets, ¬ NameOf asset.filename n)
    (hlisting : ∀ f ∈ a.listing app s, ¬ NameOf f n) :
    (a.after app s).get (kvKey (bytesKey app n)) = s.get (kvKey (bytesKey app n)) := by
  rw [(completes_after hdone).2, get_removeAll, if_neg]
  · apply get_writeAll_of_ne
    intro write hwrite
    obtain ⟨content, hput, -⟩ := mem_writes hwrite
    rcases key_of_mem_script hput with ⟨b, hb, m, hm, hkey⟩ | hkey | hkey
    · dsimp only at hkey
      rw [hkey]
      refine ⟨?_, bytesKey_ne_flag hplain m⟩
      intro hsame
      rw [← bytesKey_inj.mp hsame] at hm
      exact hbundle b hb hm
    · dsimp only at hkey
      rw [hkey]
      exact ⟨bytesKey_ne_yamlKey, bytesKey_ne_yamlKey_flag⟩
    · dsimp only at hkey
      rw [hkey]
      exact ⟨bytesKey_ne_indexKey, bytesKey_ne_indexKey_flag⟩
  · rintro (hkey | ⟨k, hk, hkey⟩)
    · obtain ⟨f, hf, m, hm, hsame⟩ := mem_dropKeys.mp hkey
      rw [← bytesKey_inj.mp hsame] at hm
      exact hlisting f (mem_dropped.mp hf).1 hm
    · obtain ⟨f, hf, m, hm, rfl⟩ := mem_dropKeys.mp hk
      exact bytesKey_ne_flag hplain m hkey

theorem converged_iff_covered (hs : Tidy s app) (ha : a.Linted) (hdone : a.Completes app s) :
    Converged (a.after app s) app a.assets ↔ Covered s app a := by
  constructor
  · intro hconverged n hheld
    by_contra hnot
    rw [not_or] at hnot
    obtain ⟨hbundle, hlisting⟩ := hnot
    have hplain : ':' ∉ n := by
      intro hcolon
      rw [hs.plain n hcolon] at hheld
      cases hheld
    have hkept := kept_after hdone hplain (fun asset hasset hn => hbundle ⟨asset, hasset, hn⟩)
      fun f hf hn => hlisting ⟨f, hf, hn⟩
    rw [← hkept] at hheld
    exact hbundle (hconverged.only n hheld)
  · intro hcovered
    refine ⟨?_, ?_, listingOf a.assets, ?_, sorted_perm _⟩
    · intro asset hasset
      exact ⟨stored_after hs.indexed ha hdone (bytes_mem_script hasset),
        stored_after hs.indexed ha hdone (meta_mem_script hasset)⟩
    · intro n hheld
      by_contra hbundle
      have hplain : ':' ∉ n := by
        intro hcolon
        rw [(tidy_after hs ha).plain n hcolon] at hheld
        cases hheld
      by_cases hlisting : ∃ f ∈ a.listing app s, NameOf f n
      · obtain ⟨f, hf, hn⟩ := hlisting
        rw [dropped_after hdone hf (fun asset hasset hname => hbundle ⟨asset, hasset, hname ▸ hn⟩)
          hn] at hheld
        cases hheld
      · rw [kept_after hdone hplain (fun asset hasset hn => hbundle ⟨asset, hasset, hn⟩)
          fun f hf hn => hlisting ⟨f, hf, hn⟩] at hheld
        rcases hcovered n hheld with hin | hin
        · exact hbundle hin
        · exact hlisting hin
    · exact stored_after hs.indexed ha hdone index_mem_script

theorem listing_of_stored {names : List Text} (hread : a.fates.head? = some .works)
    (h : Stored s (indexKey app) (.listing names)) : a.listing app s = names := by
  obtain ⟨assets, yamlText, fates⟩ := a
  cases fates with
  | nil => cases hread
  | cons fate fates =>
      obtain rfl := Option.some.inj hread
      change listingRead .works s app = names
      rw [listingRead, if_pos rfl, fetch_stored h]
      simp only [Content.ofValue_toValue]

-- A publish that came to its end leaves nothing that the next one does not know of, if that
-- one can read the index.
theorem covered_next {b : Attempt} (hs : Tidy s app) (ha : a.Linted) (hdone : a.Completes app s)
    (hcovered : Covered s app a) (hread : b.fates.head? = some .works) :
    Covered (a.after app s) app b := by
  have hconverged := (converged_iff_covered hs ha hdone).mpr hcovered
  obtain ⟨names, hstored, hperm⟩ := hconverged.listed
  have hlisting := listing_of_stored hread hstored
  intro n hheld
  obtain ⟨asset, hasset, hn⟩ := hconverged.only n hheld
  refine .inr ⟨asset.filename, ?_, hn⟩
  rw [hlisting, hperm.mem_iff]
  exact List.mem_map_of_mem hasset

theorem covered_unpublished (h : Unpublished s app) : Covered s app a := by
  intro n hheld
  rw [h.1 n] at hheld
  cases hheld

-- Publishing converges exactly where every record left over is of a file that the listing has,
-- or that is published again.
theorem converges_iff {history : List Attempt} {last : Attempt} (hfresh : Unpublished s app)
    (hhistory : ∀ a ∈ history, a.Linted) (hlast : last.Linted)
    (hdone : last.Completes app (reached app s history)) :
    Converged (last.after app (reached app s history)) app last.assets ↔
      Covered (reached app s history) app last :=
  converged_iff_covered (tidy_reached (tidy_unpublished hfresh) hhistory) hlast hdone

def one : Attempt where
  assets := [⟨"a.png".toList, "image/png".toList, [1], ['0'], 1⟩]
  yamlText := ['y']
  fates := .works :: List.replicate 8 .works

-- As many calls as it takes where there is nothing to delete.
def emptied : Attempt where
  assets := []
  yamlText := ['y']
  fates := .works :: List.replicate 4 .works

theorem one_linted : one.Linted := by
  refine ⟨fun asset hasset => ?_, by simp [one]⟩
  obtain rfl := List.mem_singleton.mp hasset
  exact ⟨by decide, by decide, by decide, by decide⟩

theorem emptied_linted : emptied.Linted :=
  ⟨by simp [emptied], by simp [emptied]⟩

theorem one_completes : one.Completes ['l'] Store.empty := by
  have hadvance : (advance (List.replicate 8 .works) (script ['l'] one.assets ['y'])).2 =
    some [] := rfl
  have hdropped : dropped (listingRead .works Store.empty ['l']) (listingOf one.assets) = [] := rfl
  refine ⟨⟨1, []⟩, [], ?_⟩
  change ((publishAssets ['l'] one.assets ['y']).playOn (.works :: List.replicate 8 .works) _).1 = _
  rw [publish_collects hadvance, hdropped]
  rfl

theorem emptied_advance :
    (advance (List.replicate 4 .works) (script ['l'] emptied.assets ['y'])).2 = some [] := rfl

theorem emptied_completes (h : emptied.listing ['l'] s = []) : emptied.Completes ['l'] s := by
  refine ⟨⟨0, []⟩, [], ?_⟩
  change ((publishAssets ['l'] emptied.assets ['y']).playOn (.works :: List.replicate 4 .works) s).1 = _
  rw [publish_collects emptied_advance, show listingRead .works s ['l'] = [] from h]
  rfl

theorem emptied_stops (h : emptied.listing ['l'] s = ["a.png".toList]) :
    emptied.after ['l'] s = writeAll s (emptied.writes ['l']) := by
  change ((publishAssets ['l'] emptied.assets ['y']).playOn (.works :: List.replicate 4 .works) s).2 = _
  rw [publish_collects emptied_advance, show listingRead .works s ['l'] = _ from h]
  rfl

theorem first_publish_converges :
    Converged (one.after ['l'] Store.empty) ['l'] one.assets ↔
      Covered Store.empty ['l'] one :=
  @converges_iff ['l'] Store.empty [] one ⟨fun _ => rfl, rfl⟩ (fun _ ha => nomatch ha) one_linted
    one_completes

-- An asset whose deletion a publish did not get to outlives the next publish: the index does
-- not list it any more.
theorem leftover_stays :
    ¬ ∀ (app : Text) (s : Store) (history : List Attempt) (last : Attempt), Unpublished s app →
      (∀ a ∈ history, a.Linted) → last.Linted → last.Completes app (reached app s history) →
        Converged (last.after app (reached app s history)) app last.assets := by
  intro hall
  have hfresh : Unpublished Store.empty ['l'] := ⟨fun _ => rfl, rfl⟩
  have htidy : Tidy (one.after ['l'] Store.empty) ['l'] :=
    tidy_after (tidy_unpublished hfresh) one_linted
  have hlisted : emptied.listing ['l'] (one.after ['l'] Store.empty) = ["a.png".toList] :=
    listing_of_stored rfl
      (stored_after (tidy_unpublished hfresh).indexed one_linted one_completes index_mem_script)
  have hreached : reached ['l'] Store.empty [one, emptied] =
      writeAll (one.after ['l'] Store.empty) (emptied.writes ['l']) := emptied_stops hlisted
  have hindex : Stored (reached ['l'] Store.empty [one, emptied]) (indexKey ['l']) (.listing []) := by
    refine ⟨[0x90], rfl, ?_⟩
    rw [hreached]
    refine writeAll_stored emptied_linted index_mem_script rfl ?_
    exact List.mem_cons_of_mem _ List.mem_cons_self
  have hnone : emptied.listing ['l'] (reached ['l'] Store.empty [one, emptied]) = [] :=
    listing_of_stored rfl hindex
  have hhistory : ∀ a ∈ [one, emptied], a.Linted := by
    intro a ha
    rcases List.mem_pair.mp ha with rfl | rfl
    · exact one_linted
    · exact emptied_linted
  have hdone := emptied_completes hnone
  have hconverged := hall _ _ _ _ hfresh hhistory emptied_linted hdone
  obtain ⟨bytes, -, hbytes⟩ :=
    stored_after (tidy_unpublished hfresh).indexed one_linted one_completes
      (bytes_mem_script List.mem_cons_self)
  have hheld : (emptied.after ['l'] (reached ['l'] Store.empty [one, emptied])).get
      (kvKey (bytesKey ['l'] "a.png".toList)) = some bytes := by
    rw [kept_after hdone (by decide) (fun asset hasset => nomatch hasset), hreached]
    · refine (get_writeAll_of_ne ?_).trans hbytes
      intro write hwrite
      rcases List.mem_pair.mp hwrite with rfl | rfl
      · exact ⟨bytesKey_ne_yamlKey, bytesKey_ne_yamlKey_flag⟩
      · exact ⟨bytesKey_ne_indexKey, bytesKey_ne_indexKey_flag⟩
    · rw [hnone]
      exact fun f hf => nomatch hf
  obtain ⟨asset, hasset, -⟩ := hconverged.only "a.png".toList (by rw [hheld]; rfl)
  exact nomatch hasset

end Completed

end Stra2us.Publish
