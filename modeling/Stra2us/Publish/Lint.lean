import Stra2us.Publish.Serve

namespace Stra2us.Publish

open Foundation Server

section Bundle

inductive Severity
  | error
  | warning
deriving DecidableEq, Repr

structure LintIssue where
  severity : Severity
  path : Text
  message : Text
deriving DecidableEq, Repr

structure Asset where
  filename : Text
  contentType : Text
  sizeBytes : Nat

-- What the environment can change of the lint.
structure AssetLimits where
  maxBytes : Int
  bundleMaxBytes : Int
  contentTypes : List Text

def AssetLimits.default : AssetLimits where
  maxBytes := 262144
  bundleMaxBytes := 2097152
  contentTypes := ["image/svg+xml".toList, "image/png".toList, "image/jpeg".toList,
    "image/webp".toList]

def filenamePattern : Text := "^(?!\\.)[a-z0-9._-]\x7b1,64\x7d$".toList

-- A list of strings as Python writes it, given how it writes one.
def listRepr (repr : Text → Text) (names : List Text) : Text :=
  '[' :: (List.intercalate ", ".toList (names.map repr) ++ [']'])

variable (repr : Text → Text) (limits : AssetLimits)

def nameIssues (path : Text) (asset : Asset) : List LintIssue :=
  if isFilename asset.filename then []
  else [⟨.error, path, "filename must match ".toList ++ filenamePattern⟩]

def duplicateIssues (path : Text) (seen : List Text) (asset : Asset) : List LintIssue :=
  if asset.filename ∈ seen then [⟨.error, path, "duplicate filename in bundle".toList⟩] else []

def typeIssues (path : Text) (asset : Asset) : List LintIssue :=
  if asset.contentType ∈ limits.contentTypes then []
  else [⟨.error, path, "content type ".toList ++ repr asset.contentType ++
    " not in allowlist (".toList ++ listRepr repr (sorted limits.contentTypes) ++ ")".toList⟩]

def sizeIssues (path : Text) (asset : Asset) : List LintIssue :=
  if (asset.sizeBytes : Int) > limits.maxBytes then
    [⟨.error, path, "size ".toList ++ natText asset.sizeBytes ++
      " exceeds STRA2US_ASSET_MAX_BYTES (".toList ++ intText limits.maxBytes ++ ")".toList⟩]
  else []

-- The pass over the files, with the names seen so far.
def lintAssets : List Text → List Asset → List LintIssue
  | _, [] => []
  | seen, asset :: rest =>
      let path := "_assets/".toList ++ asset.filename
      nameIssues path asset ++ duplicateIssues path seen asset ++ typeIssues repr limits path asset ++
        sizeIssues limits path asset ++ lintAssets (asset.filename :: seen) rest

def lintAssetBundle (assets : List Asset) : List LintIssue :=
  let total := (assets.map Asset.sizeBytes).sum
  lintAssets repr limits [] assets ++
    if (total : Int) > limits.bundleMaxBytes then
      [⟨.error, "_assets/".toList, "bundle size ".toList ++ natText total ++
        " exceeds STRA2US_ASSET_BUNDLE_MAX_BYTES (".toList ++ intText limits.bundleMaxBytes ++
          ")".toList⟩]
    else []

def lintLoaded (assets : List LoadedAsset) : List LintIssue :=
  lintAssetBundle repr limits (assets.map fun a => ⟨a.filename, a.contentType, a.sizeBytes⟩)

def errors (issues : List LintIssue) : List LintIssue :=
  issues.filter fun issue => issue.severity = .error

end Bundle

section Accepted

variable {repr : Text → Text} {limits : AssetLimits} {seen : List Text} {assets : List Asset}
  {filename : Text}

theorem errors_append (a b : List LintIssue) : errors (a ++ b) = errors a ++ errors b :=
  List.filter_append _ _

-- What a pass without errors has seen to.
theorem lintAssets_clean (h : errors (lintAssets repr limits seen assets) = []) :
    (∀ asset ∈ assets, isFilename asset.filename = true ∧
      asset.contentType ∈ limits.contentTypes) ∧
    (assets.map Asset.filename).Nodup ∧ ∀ asset ∈ assets, asset.filename ∉ seen := by
  induction assets generalizing seen with
  | nil => simp
  | cons asset rest ih =>
      rw [lintAssets] at h
      simp only [errors_append, List.append_eq_nil_iff] at h
      obtain ⟨⟨⟨⟨hname, hduplicate⟩, htype⟩, -⟩, hrest⟩ := h
      obtain ⟨heach, hnodup, hunseen⟩ := ih hrest
      have hname : isFilename asset.filename = true := by
        by_contra hnot
        simp [nameIssues, errors, hnot] at hname
      have hfresh : asset.filename ∉ seen := by
        intro hmem
        simp [duplicateIssues, errors, hmem] at hduplicate
      have htype : asset.contentType ∈ limits.contentTypes := by
        by_contra hnot
        simp [typeIssues, errors, hnot] at htype
      refine ⟨?_, ?_, ?_⟩
      · intro other hother
        cases List.mem_cons.mp hother with
        | inl hsame =>
            rw [hsame]
            exact ⟨hname, htype⟩
        | inr hlater => exact heach other hlater
      · rw [List.map_cons, List.nodup_cons]
        refine ⟨?_, hnodup⟩
        intro hmem
        obtain ⟨other, hother, hsame⟩ := List.mem_map.mp hmem
        exact hunseen other hother (by rw [hsame]; exact List.mem_cons_self)
      · intro other hother
        cases List.mem_cons.mp hother with
        | inl hsame =>
            rw [hsame]
            exact hfresh
        | inr hlater => exact fun hmem => hunseen other hlater (List.mem_cons_of_mem _ hmem)

-- A suffix ends as the name does,
theorem suffix_of_newline (init : Text) :
    suffix (init ++ ['\n']) = [] ∨ ∃ front, suffix (init ++ ['\n']) = front ++ ['\n'] := by
  have hreverse : (init ++ ['\n']).reverse = '\n' :: init.reverse := by simp
  have htail : ('\n' :: init.reverse).takeWhile (· ≠ '.') =
      '\n' :: init.reverse.takeWhile (· ≠ '.') := by
    rw [List.takeWhile_cons, if_pos (by decide)]
  unfold suffix
  simp only [hreverse, htail]
  split
  · rw [if_neg (by simp)]
    exact .inr ⟨'.' :: (init.reverse.takeWhile (· ≠ '.')).reverse, by simp⟩
  · exact .inl rfl

-- and none of the known ones ends in a newline.
theorem contentTypeFor_of_newline (init : Text) : contentTypeFor (init ++ ['\n']) = none := by
  have hlower : ∀ front : Text, contentTypeOfSuffix (front ++ ['\n']) = none := by
    intro front
    have hne : ∀ known : Text, known.getLast? ≠ some '\n' → front ++ ['\n'] ≠ known := by
      rintro known hknown rfl
      exact hknown (by simp)
    unfold contentTypeOfSuffix
    rw [if_neg (hne _ (by decide)), if_neg (hne _ (by decide)), if_neg (hne _ (by decide)),
      if_neg (hne _ (by decide)), if_neg (hne _ (by decide))]
  unfold contentTypeFor
  rcases suffix_of_newline init with hempty | ⟨front, hfront⟩
  · rw [hempty]
    rfl
  · rw [hfront, List.map_append]
    exact hlower (front.map Char.toLower)

theorem linted_of_isFilename (h : isFilename filename = true)
    (htype : (contentTypeFor filename).isSome) : LintedName filename := by
  rw [isFilename, Bool.or_eq_true] at h
  cases h with
  | inl hnamed =>
      simp only [Bool.and_eq_true, decide_eq_true_eq] at hnamed
      obtain ⟨⟨⟨hhead, -⟩, hlength⟩, hall⟩ := hnamed
      exact ⟨hall, hhead, hlength, htype⟩
  | inr hnewline =>
      simp only [Bool.and_eq_true, decide_eq_true_eq] at hnewline
      obtain ⟨init, rfl⟩ := List.getLast?_eq_some_iff.mp hnewline.1
      rw [contentTypeFor_of_newline] at htype
      cases htype

-- What the lint lets through of what was loaded from files.
theorem linted_of_accepted {sha256 : Bytes → Text} {a : Attempt}
    (hlint : errors (lintLoaded repr limits a.assets) = [])
    (htypes : limits.contentTypes = AssetLimits.default.contentTypes) (hloaded : a.Loaded sha256) :
    a.Linted := by
  rw [lintLoaded, lintAssetBundle, errors_append, List.append_eq_nil_iff] at hlint
  obtain ⟨heach, hnodup, -⟩ := lintAssets_clean hlint.1
  constructor
  · intro asset hasset
    obtain ⟨hname, htype⟩ := heach _ (List.mem_map_of_mem hasset)
    refine linted_of_isFilename hname ?_
    have hcontent : asset.contentType =
        (contentTypeFor asset.filename).getD "application/octet-stream".toList :=
      congrArg LoadedAsset.contentType (hloaded asset hasset)
    cases hknown : contentTypeFor asset.filename with
    | some known => rfl
    | none =>
        have hout : "application/octet-stream".toList ∉ AssetLimits.default.contentTypes := by
          decide
        rw [hcontent, hknown, htypes] at htype
        exact absurd htype hout
  · rwa [List.map_map] at hnodup

end Accepted

section Published

variable {s : Store} {app filename : Text} {a : Attempt} {asset : LoadedAsset}

-- The bytes, with their type and their hash.
def ServedExactly (s : Store) (app : Text) (asset : LoadedAsset) : Prop :=
  serveAsset s app asset.filename =
    .ok ⟨asset.bytesPayload, .str asset.contentType, some ('"' :: (asset.sha256Hex ++ ['"']))⟩

theorem etagOf_sidecar {contentType sha256 : Text} {size : Nat} (h : sha256 ≠ []) :
    etagOf (Msgpack.fieldPairs (Content.sidecarFields contentType sha256 size)) =
      some ('"' :: (sha256 ++ ['"'])) := by
  change (if sha256 = [] then none else some _) = _
  rw [if_neg h]

theorem servedExactly_of_stored (hname : LintedName asset.filename) (hsha : asset.sha256Hex ≠ [])
    (hbytes : Stored s (bytesKey app asset.filename) (.bytes asset.bytesPayload))
    (hmeta : Stored s (metaKey app asset.filename) (sidecarOf asset)) :
    ServedExactly s app asset := by
  rw [ServedExactly, serveAsset_stored hname hbytes hmeta, etagOf_sidecar hsha]

-- A name that is not of the bundle has no record after the publish that it had not before.
theorem absent_after (habsent : s.get (kvKey (bytesKey app filename)) = none)
    (hother : ∀ asset ∈ a.assets, asset.filename ≠ filename)
    (hmeta : ¬ ".meta".toList <:+ filename) :
    (a.after app s).get (kvKey (bytesKey app filename)) = none := by
  rcases a.after_cases app s (bytesKey app filename) with hafter | ⟨hafter, -⟩
  · rw [hafter]
    rcases get_writeAll_cases s (a.writes app) (bytesKey app filename) with
      hsame | ⟨hnone, -⟩ | ⟨bytes, hmem, -⟩
    · rw [hsame, habsent]
    · exact hnone
    · obtain ⟨content, hput, -⟩ := mem_writes hmem
      rcases mem_script hput with ⟨asset, hasset, hput | hput⟩ | hput | hput
      · exact absurd (bytesKey_inj.mp (Prod.mk.inj hput).1).symm (hother asset hasset)
      · exact absurd ⟨_, (bytesKey_inj.mp (Prod.mk.inj hput).1).symm⟩ hmeta
      · exact absurd (Prod.mk.inj hput).1 bytesKey_ne_yamlKey
      · exact absurd (Prod.mk.inj hput).1 bytesKey_ne_indexKey
  · exact hafter

theorem serveAsset_absent (h : s.get (kvKey (bytesKey app filename)) = none) :
    ∃ detail, serveAsset s app filename = .error (.http 404 detail) := by
  unfold serveAsset
  by_cases hname : isFilename filename = true
  · rw [hname, if_neg (by simp)]
    by_cases hmeta : ".meta".toList <:+ filename
    · rw [if_pos hmeta]
      exact ⟨_, rfl⟩
    · rw [if_neg hmeta, h]
      exact ⟨_, rfl⟩
  · rw [if_pos (by simpa using hname)]
    exact ⟨_, rfl⟩

theorem serveAsset_reserved (h : ".meta".toList <:+ filename) :
    ∃ detail, serveAsset s app filename = .error (.http 404 detail) := by
  unfold serveAsset
  by_cases hname : isFilename filename = true
  · rw [hname, if_neg (by simp), if_pos h]
    exact ⟨_, rfl⟩
  · rw [if_pos (by simpa using hname)]
    exact ⟨_, rfl⟩

-- No two records of a bundle have one key.
theorem keys_nodup (ha : a.Linted) : ((script app a.assets a.yamlText).map Prod.fst).Nodup := by
  have hkeys : (uploads app a.assets).map Prod.fst =
      dropKeys app (a.assets.map LoadedAsset.filename) := by
    simp [uploads, dropKeys, List.map_flatMap, List.flatMap_map]
  rw [script, List.map_append, hkeys, List.nodup_append']
  refine ⟨?_, ?_, ?_⟩
  · rw [dropKeys, List.nodup_flatMap]
    constructor
    · intro filename _
      rw [metaKey_eq]
      simp [bytesKey_inj]
    · rw [List.pairwise_map]
      refine List.Pairwise.imp_of_mem ?_ (List.pairwise_map.mp ha.2)
      intro b c hb hc hne key hkey hkey'
      have hname : ∀ {asset : LoadedAsset}, key ∈ [bytesKey app asset.filename,
          metaKey app asset.filename] → ∃ n, NameOf asset.filename n ∧ key = bytesKey app n := by
        intro asset hmem
        rw [metaKey_eq] at hmem
        rcases List.mem_pair.mp hmem with hsame | hsame
        · exact ⟨_, .inl rfl, hsame⟩
        · exact ⟨_, .inr rfl, hsame⟩
      obtain ⟨n, hn, hkeyn⟩ := hname hkey
      obtain ⟨m, hm, hkeym⟩ := hname hkey'
      obtain rfl := bytesKey_inj.mp (hkeyn.symm.trans hkeym)
      exact hne (nameOf_unique (ha.1 b hb) (ha.1 c hc) hn hm)
  · simp [commits, Ne.symm indexKey_ne_yamlKey]
  · intro key hkey hcommit
    obtain ⟨f, -, n, -, rfl⟩ := mem_dropKeys.mp hkey
    simp only [commits, List.map_cons, List.map_nil] at hcommit
    rcases List.mem_pair.mp hcommit with hsame | hsame
    · exact bytesKey_ne_yamlKey hsame
    · exact bytesKey_ne_indexKey hsame

-- What a publish of an accepted bundle that came to its end leaves to be served.
theorem publish_serves {repr : Text → Text} {limits : AssetLimits} {sha256 : Bytes → Text}
    (hdigest : ∀ payload, (sha256 payload).length = 64)
    (htypes : limits.contentTypes = AssetLimits.default.contentTypes)
    (hlint : errors (lintLoaded repr limits a.assets) = []) (hloaded : a.Loaded sha256)
    (hindexed : Indexed s app) (hdone : a.Completes app s) :
    (∀ asset ∈ a.assets, ServedExactly (a.after app s) app asset) ∧
    (∀ filename, (∀ asset ∈ a.assets, asset.filename ≠ filename) →
      s.get (kvKey (bytesKey app filename)) = none →
        ∃ detail, serveAsset (a.after app s) app filename = .error (.http 404 detail)) ∧
    ((script app a.assets a.yamlText).map Prod.fst).Nodup := by
  have ha : a.Linted := linted_of_accepted hlint htypes hloaded
  refine ⟨?_, ?_, keys_nodup ha⟩
  · intro asset hasset
    have hsha : asset.sha256Hex ≠ [] := by
      have hhash : asset.sha256Hex = sha256 asset.bytesPayload :=
        congrArg LoadedAsset.sha256Hex (hloaded asset hasset)
      intro hempty
      have hlength := hdigest asset.bytesPayload
      rw [← hhash, hempty] at hlength
      cases hlength
    exact servedExactly_of_stored (ha.1 asset hasset) hsha
      (stored_after hindexed ha hdone (bytes_mem_script hasset))
      (stored_after hindexed ha hdone (meta_mem_script hasset))
  · intro filename hother habsent
    by_cases hmeta : ".meta".toList <:+ filename
    · exact serveAsset_reserved hmeta
    · exact serveAsset_absent (absent_after habsent hother hmeta)

def zeros (_ : Bytes) : Text := List.replicate 64 '0'

def picture (filename : Text) (payload : Bytes) : LoadedAsset :=
  ⟨filename, "image/png".toList, payload, zeros payload, payload.length⟩

-- One picture, with the calls it takes to drop another file.
def single : Attempt where
  assets := [picture "a.png".toList [1]]
  yamlText := ['y']
  fates := .works :: List.replicate 10 .works

theorem single_loaded : single.Loaded zeros := by
  intro asset hasset
  obtain rfl := List.mem_singleton.mp hasset
  rfl

theorem single_accepted : errors (lintLoaded id .default single.assets) = [] := by decide

-- An index that a publish of the lint's bundles does not write.
def foreignIndex : Store :=
  written .empty (indexKey ['l']) (0x91 :: 0xaa :: utf8 "a.png.meta".toList)

theorem single_plays {s : Store} {names : List Text} (h : listingRead .works s ['l'] = names)
    {result : PublishResult} {left : List Fate} {s' : Store}
    (hrest : ((collect ['l'] (dropped names ["a.png".toList]) >>= fun _ =>
      pure ⟨1, dropped names ["a.png".toList]⟩ : Publisher PublishResult).playOn [.works, .works]
        (writeAll s (single.writes ['l']))) = (some (.ok result, left), s')) :
    single.playOn ['l'] s = (some (.ok result, left), s') := by
  have hadvance : (advance (List.replicate 10 .works) (script ['l'] single.assets ['y'])).2 =
    some [.works, .works] := rfl
  change (publishAssets ['l'] single.assets ['y']).playOn (.works :: List.replicate 10 .works) s = _
  rw [publish_collects hadvance, h]
  exact hrest

theorem single_completes : single.Completes ['l'] .empty := by
  refine ⟨⟨1, []⟩, [.works, .works], ?_⟩
  have hlisting : listingRead .works Store.empty ['l'] = [] := rfl
  exact congrArg Prod.fst (single_plays hlisting rfl)

theorem publish_serves_single :
    (∀ asset ∈ single.assets, ServedExactly (single.after ['l'] .empty) ['l'] asset) ∧
    (∀ filename, (∀ asset ∈ single.assets, asset.filename ≠ filename) →
      Store.empty.get (kvKey (bytesKey ['l'] filename)) = none →
        ∃ detail, serveAsset (single.after ['l'] .empty) ['l'] filename =
          .error (.http 404 detail)) ∧
    ((script ['l'] single.assets single.yamlText).map Prod.fst).Nodup :=
  publish_serves (fun _ => List.length_replicate) rfl single_accepted single_loaded (.inl rfl)
    single_completes

-- With a sidecar's name among the files two records have one key, and with one in the index the
-- sidecar of a file that is published is deleted again.
theorem publish_leaves_unserved :
    (∃ a : Attempt, errors (lintLoaded id .default a.assets) = [] ∧ a.Completes ['l'] .empty ∧
      ¬ ((script ['l'] a.assets a.yamlText).map Prod.fst).Nodup) ∧
    ∃ (a : Attempt) (s : Store), errors (lintLoaded id .default a.assets) = [] ∧ a.Loaded zeros ∧
      a.Completes ['l'] s ∧ ∃ asset ∈ a.assets, ¬ ServedExactly (a.after ['l'] s) ['l'] asset := by
  constructor
  · refine ⟨⟨[picture "a.png".toList [1], picture "a.png.meta".toList [2]], ['y'],
      .works :: List.replicate 12 .works⟩, by decide, ⟨⟨2, []⟩, [], ?_⟩, by decide⟩
    have hadvance : (advance (List.replicate 12 .works) (script ['l'] [picture "a.png".toList [1],
      picture "a.png.meta".toList [2]] ['y'])).2 = some [] := rfl
    change ((publishAssets ['l'] _ ['y']).playOn (.works :: List.replicate 12 .works) _).1 = _
    rw [publish_collects hadvance]
    rfl
  · have hlisting : listingRead .works foreignIndex ['l'] = ["a.png.meta".toList] := by
      decide +kernel
    have hdone : single.Completes ['l'] foreignIndex :=
      ⟨⟨1, ["a.png.meta".toList]⟩, [], congrArg Prod.fst (single_plays hlisting rfl)⟩
    refine ⟨single, foreignIndex, single_accepted, single_loaded, hdone, _, List.mem_cons_self, ?_⟩
    have hgone : (single.after ['l'] foreignIndex).get (kvKey (metaKey ['l'] "a.png".toList)) =
        none := by
      rw [metaKey_eq]
      refine @dropped_after ['l'] _ "a.png.meta".toList _ single hdone ?_ ?_ (.inl rfl)
      · change "a.png.meta".toList ∈ listingRead .works foreignIndex ['l']
        rw [hlisting]
        exact List.mem_cons_self
      · intro asset hasset
        obtain rfl := List.mem_singleton.mp hasset
        decide
    intro hserved
    have hname : isFilename "a.png".toList = true := by decide
    have hmeta : ¬ ".meta".toList <:+ "a.png".toList := by decide
    change serveAsset (single.after ['l'] foreignIndex) ['l'] "a.png".toList = _ at hserved
    rw [serveAsset, hname, if_neg (by simp), if_neg hmeta, hgone] at hserved
    cases hbytes : (single.after ['l'] foreignIndex).get
        (kvKey (bytesKey ['l'] "a.png".toList)) with
    | none =>
        rw [hbytes] at hserved
        cases hserved
    | some raw =>
        rw [hbytes] at hserved
        cases hserved

end Published

end Stra2us.Publish
