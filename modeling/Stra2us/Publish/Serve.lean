import Stra2us.Publish.Converge

namespace Stra2us.Publish

open Foundation Server

section Serve

-- `$` also matches in front of a last newline.
def isFilename (filename : Text) : Bool :=
  let named (text : Text) : Bool :=
    text.head? ≠ some '.' && 1 ≤ text.length && text.length ≤ 64 && text.all isFilenameChar
  named filename || (filename.getLast? = some '\n' && named filename.dropLast)

-- What the response is made of.
structure ServedAsset where
  content : Bytes
  mediaType : Value
  etag : Option Text

def etagOf (pairs : List (Value × Value)) : Option Text :=
  match Value.lookup pairs "sha256".toList with
  | some (.str sha256) => if sha256 = [] then none else some ('"' :: (sha256 ++ ['"']))
  | _ => none

def serveAsset (s : Store) (app filename : Text) : Except Exn ServedAsset :=
  if !isFilename filename then .error (.http 404 "bad asset name".toList)
  else if ".meta".toList <:+ filename then .error (.http 404 "reserved suffix".toList)
  else
    match s.get (kvKey (bytesKey app filename)), s.get (kvKey (metaKey app filename)) with
    | some bytesRaw, some metaRaw =>
        match Msgpack.unpackb true bytesRaw, Msgpack.unpackb false metaRaw with
        | some payload, some sidecar =>
            match payload with
            | .bytes content =>
                match sidecar with
                | .dict pairs =>
                    .ok ⟨content, (Value.lookup pairs "content_type".toList).getD
                      (.str "application/octet-stream".toList), etagOf pairs⟩
                | _ => .error (.http 404 "asset meta malformed".toList)
            | _ => .error (.http 404 "asset payload not bytes".toList)
        | _, _ => .error (.http 404 "asset corrupted".toList)
    | _, _ => .error (.http 404 "asset not found".toList)

variable {s : Store} {app filename : Text}

theorem isFilename_of_linted (h : LintedName filename) : isFilename filename = true := by
  obtain ⟨hall, hhead, hlength, htype⟩ := h
  have hpos : 1 ≤ filename.length := by
    cases filename with
    | nil => cases htype
    | cons first rest => simp
  simp only [isFilename, hhead, hpos, hlength, hall, ne_eq, not_false_eq_true, decide_true,
    Bool.and_self, Bool.true_or]

-- A file whose two records are there is served as they say.
theorem serveAsset_stored {payload : Bytes} {contentType sha256 : Text} {size : Nat}
    (hname : LintedName filename) (hbytes : Stored s (bytesKey app filename) (.bytes payload))
    (hmeta : Stored s (metaKey app filename) (.sidecar contentType sha256 size)) :
    serveAsset s app filename = .ok ⟨payload, .str contentType,
      etagOf (Msgpack.fieldPairs (Content.sidecarFields contentType sha256 size))⟩ := by
  obtain ⟨raw, hpack, hraw⟩ := hbytes
  obtain ⟨rawMeta, hpackMeta, hrawMeta⟩ := hmeta
  have hpayload : Msgpack.unpackb true raw = some (.bytes payload) := Msgpack.unpackb_bytes hpack
  have hreserved : ¬ ".meta".toList <:+ filename := by
    rintro ⟨other, hother⟩
    exact ne_append_meta hname other hother.symm
  rw [serveAsset, isFilename_of_linted hname, if_neg (by simp), if_neg hreserved, hraw, hrawMeta]
  dsimp only
  rw [hpayload, Content.unpackb_toValue hpackMeta]
  rfl

end Serve

section Shaped

variable {sha256 : Bytes → Text} {s : Store} {app key f : Text} {raw : Bytes} {a : Attempt}

-- The assets are as they are loaded from their files.
def Attempt.Loaded (sha256 : Bytes → Text) (a : Attempt) : Prop :=
  ∀ asset ∈ a.assets, asset = loadAsset sha256 asset.filename asset.bytesPayload

def sidecarOf (asset : LoadedAsset) : Content :=
  .sidecar asset.contentType asset.sha256Hex asset.sizeBytes

-- What is held under the names of a file is of the kinds that are published.
structure Shaped (sha256 : Bytes → Text) (s : Store) (app : Text) : Prop where
  payload : ∀ f raw, LintedName f → s.get (kvKey (bytesKey app f)) = some raw →
    ∃ payload, Msgpack.packb (Content.bytes payload).toValue = some raw
  sidecar : ∀ f raw, LintedName f → s.get (kvKey (metaKey app f)) = some raw →
    ∃ payload, Msgpack.packb (sidecarOf (loadAsset sha256 f payload)).toValue = some raw

theorem shaped_unpublished (h : Unpublished s app) : Shaped sha256 s app := by
  constructor
  · intro f raw _ hget
    rw [h.1 f] at hget
    cases hget
  · intro f raw _ hget
    rw [metaKey_eq, h.1] at hget
    cases hget

theorem after_get (hget : (a.after app s).get (kvKey key) = some raw) :
    s.get (kvKey key) = some raw ∨ ∃ content, (key, content) ∈ script app a.assets a.yamlText ∧
      Msgpack.packb content.toValue = some raw := by
  rcases a.after_cases app s key with hafter | ⟨hafter, -⟩
  · rw [hafter] at hget
    rcases get_writeAll_cases s (a.writes app) key with hsame | ⟨hnone, -⟩ | ⟨bytes, hmem, hbytes⟩
    · exact .inl (hsame ▸ hget)
    · rw [hnone] at hget
      cases hget
    · obtain rfl := Option.some.inj (hbytes.symm.trans hget)
      exact .inr (mem_writes hmem)
  · rw [hafter] at hget
    cases hget

theorem shaped_after (h : Shaped sha256 s app) (ha : a.Linted) (hloaded : a.Loaded sha256) :
    Shaped sha256 (a.after app s) app := by
  constructor
  · intro f raw hf hget
    rcases after_get hget with hbefore | ⟨content, hput, hpack⟩
    · exact h.payload f raw hf hbefore
    · rcases mem_script hput with ⟨asset, hasset, hput | hput⟩ | hput | hput
      · obtain ⟨-, rfl⟩ := Prod.mk.inj hput
        exact ⟨asset.bytesPayload, hpack⟩
      · exact absurd (bytesKey_inj.mp (Prod.mk.inj hput).1) (ne_append_meta hf _)
      · exact absurd (Prod.mk.inj hput).1 bytesKey_ne_yamlKey
      · exact absurd (Prod.mk.inj hput).1 bytesKey_ne_indexKey
  · intro f raw hf hget
    rcases after_get hget with hbefore | ⟨content, hput, hpack⟩
    · exact h.sidecar f raw hf hbefore
    · rw [metaKey_eq] at hput
      rcases mem_script hput with ⟨asset, hasset, hput | hput⟩ | hput | hput
      · exact absurd (bytesKey_inj.mp (Prod.mk.inj hput).1).symm
          (ne_append_meta (ha.1 asset hasset) f)
      · obtain ⟨hkey, rfl⟩ := Prod.mk.inj hput
        obtain rfl := List.append_cancel_right (bytesKey_inj.mp hkey)
        refine ⟨asset.bytesPayload, ?_⟩
        rw [← hloaded asset hasset]
        exact hpack
      · exact absurd (Prod.mk.inj hput).1 bytesKey_ne_yamlKey
      · exact absurd (Prod.mk.inj hput).1 bytesKey_ne_indexKey

theorem shaped_reached {history : List Attempt} (h : Shaped sha256 s app)
    (hhistory : ∀ a ∈ history, a.Linted ∧ a.Loaded sha256) :
    Shaped sha256 (reached app s history) app := by
  induction history generalizing s with
  | nil => exact h
  | cons a history ih =>
      obtain ⟨ha, hloaded⟩ := hhistory a List.mem_cons_self
      exact ih (shaped_after h ha hloaded)
        fun other hother => hhistory other (List.mem_cons_of_mem _ hother)

theorem stored_unique {content content' : Content} (h : Stored s key content)
    (h' : Stored s key content') : content = content' := by
  obtain ⟨bytes, hpack, hget⟩ := h
  obtain ⟨bytes', hpack', hget'⟩ := h'
  obtain rfl := Option.some.inj (hget.symm.trans hget')
  have hvalue := Option.some.inj
    ((Content.unpackb_toValue hpack).symm.trans (Content.unpackb_toValue hpack'))
  have hcontent := congrArg Content.ofValue hvalue
  rw [Content.ofValue_toValue, Content.ofValue_toValue] at hcontent
  exact Option.some.inj hcontent

-- It is served with its own bytes, and the sidecar is about these.
def ServedRight (sha256 : Bytes → Text) (s : Store) (app : Text) (asset : LoadedAsset) : Prop :=
  ∃ served contentType, serveAsset s app asset.filename = .ok served ∧
    served.content = asset.bytesPayload ∧ served.mediaType = .str contentType ∧
    Stored s (metaKey app asset.filename)
      (.sidecar contentType (sha256 served.content) served.content.length)

theorem serveAsset_ok {served : ServedAsset} (h : serveAsset s app f = .ok served) :
    ∃ raw, s.get (kvKey (bytesKey app f)) = some raw := by
  cases hget : s.get (kvKey (bytesKey app f)) with
  | some raw => exact ⟨raw, rfl⟩
  | none =>
      rw [serveAsset, hget] at h
      split at h
      · cases h
      · split at h
        · cases h
        · cases h

theorem servedRight_iff {asset : LoadedAsset} (hs : Shaped sha256 s app)
    (hname : LintedName asset.filename)
    (hloaded : asset = loadAsset sha256 asset.filename asset.bytesPayload) :
    ServedRight sha256 s app asset ↔
      Stored s (bytesKey app asset.filename) (.bytes asset.bytesPayload) ∧
        Stored s (metaKey app asset.filename) (sidecarOf asset) := by
  constructor
  · rintro ⟨served, contentType, hserve, hcontent, htype, hmeta⟩
    obtain ⟨raw, hraw⟩ := serveAsset_ok hserve
    obtain ⟨payload, hpack⟩ := hs.payload _ _ hname hraw
    have hbytes : Stored s (bytesKey app asset.filename) (.bytes payload) := ⟨raw, hpack, hraw⟩
    have hserved := serveAsset_stored hname hbytes hmeta
    have hsame := congrArg ServedAsset.content (Except.ok.inj (hserve.symm.trans hserved))
    have hpayload : payload = asset.bytesPayload := by
      rw [← hcontent]
      exact hsame.symm
    obtain ⟨rawMeta, -, hrawMeta⟩ := id hmeta
    obtain ⟨payload', hpackMeta⟩ := hs.sidecar _ _ hname hrawMeta
    have hsidecar := stored_unique hmeta ⟨rawMeta, hpackMeta, hrawMeta⟩
    rw [hpayload] at hbytes
    refine ⟨hbytes, ?_⟩
    have hfields : Content.sidecar contentType (sha256 served.content) served.content.length =
        sidecarOf asset := by
      rw [hloaded, hcontent]
      exact congrArg (fun t => Content.sidecar t (sha256 asset.bytesPayload)
        asset.bytesPayload.length) (Content.sidecar.inj hsidecar).1
    rw [← hfields]
    exact hmeta
  · rintro ⟨hbytes, hmeta⟩
    refine ⟨_, asset.contentType, serveAsset_stored hname hbytes hmeta, rfl, rfl, ?_⟩
    have hfields : sidecarOf asset = .sidecar asset.contentType (sha256 asset.bytesPayload)
        asset.bytesPayload.length := by
      rw [hloaded]
      rfl
    rw [← hfields]
    exact hmeta

end Shaped

section Stopped

variable {sha256 : Bytes → Text} {s : Store} {app key n : Text} {a first second : Attempt}

def InPlace (s : Store) (app : Text) (assets : List LoadedAsset) : Prop :=
  ∀ put ∈ uploads app assets, Stored s put.1 put.2

def Attempt.Writes (app : Text) (a : Attempt) (key : Text) : Prop :=
  ∃ bytes, (key, bytes) ∈ a.writes app

-- The catalog that is stored has its assets served.
def Consistent (sha256 : Bytes → Text) (s : Store) (app : Text) (first second : Attempt) : Prop :=
  (Stored s (yamlKey app) (.yaml first.yamlText) ∧
      ∀ asset ∈ first.assets, ServedRight sha256 s app asset) ∨
    (Stored s (yamlKey app) (.yaml second.yamlText) ∧
      ∀ asset ∈ second.assets, ServedRight sha256 s app asset)

-- The new catalog was written, or no record of an earlier asset was replaced by another, or the
-- catalog is the same and all of the new bundle is there.
def SafelyStopped (s : Store) (app : Text) (first second : Attempt) : Prop :=
  second.Writes app (yamlKey app) ∨
    (∀ put ∈ uploads app first.assets, ∀ write ∈ second.writes app, write.1 = put.1 →
      Msgpack.packb put.2.toValue = some write.2) ∨
    (first.yamlText = second.yamlText ∧
      ∀ put ∈ uploads app second.assets, second.Writes app put.1 ∨ Stored s put.1 put.2)

theorem served_iff_inPlace (hs : Shaped sha256 s app) (ha : a.Linted) (hloaded : a.Loaded sha256) :
    (∀ asset ∈ a.assets, ServedRight sha256 s app asset) ↔ InPlace s app a.assets := by
  constructor
  · intro hserved put hput
    obtain ⟨asset, hasset, hmem⟩ := List.mem_flatMap.mp hput
    obtain ⟨hbytes, hmeta⟩ :=
      (servedRight_iff hs (ha.1 asset hasset) (hloaded asset hasset)).mp (hserved asset hasset)
    rcases List.mem_pair.mp hmem with rfl | rfl
    · exact hbytes
    · exact hmeta
  · intro hplace asset hasset
    refine (servedRight_iff hs (ha.1 asset hasset) (hloaded asset hasset)).mpr ⟨?_, ?_⟩
    · exact hplace (bytesKey app asset.filename, .bytes asset.bytesPayload)
        (List.mem_flatMap.mpr ⟨asset, hasset, List.mem_cons_self⟩)
    · exact hplace (metaKey app asset.filename, sidecarOf asset)
        (List.mem_flatMap.mpr ⟨asset, hasset, List.mem_cons_of_mem _ List.mem_cons_self⟩)

theorem key_of_mem_uploads {assets : List LoadedAsset} {put : Text × Content}
    (h : put ∈ uploads app assets) :
    ∃ asset ∈ assets, ∃ n, NameOf asset.filename n ∧ put.1 = bytesKey app n := by
  obtain ⟨asset, hasset, hmem⟩ := List.mem_flatMap.mp h
  rw [metaKey_eq] at hmem
  rcases List.mem_pair.mp hmem with rfl | rfl
  · exact ⟨asset, hasset, _, .inl rfl, rfl⟩
  · exact ⟨asset, hasset, _, .inr rfl, rfl⟩

-- The catalog is written after all of the bundle.
theorem uploads_written (h : a.Writes app (yamlKey app)) {put : Text × Content}
    (hput : put ∈ uploads app a.assets) :
    ∃ bytes, Msgpack.packb put.2.toValue = some bytes ∧ (put.1, bytes) ∈ a.writes app := by
  obtain ⟨yaml, hyaml⟩ := h
  rw [Attempt.writes, script] at hyaml ⊢
  cases hadvance : (advance a.fates.tail (uploads app a.assets)).2 with
  | none =>
      rw [advance_append_none hadvance] at hyaml
      obtain ⟨content, hmem, -⟩ := mem_advance hyaml
      obtain ⟨asset, -, n, -, hkey⟩ := key_of_mem_uploads hmem
      exact absurd hkey.symm bytesKey_ne_yamlKey
  | some rest =>
      rw [advance_append_some hadvance]
      obtain ⟨bytes, hpack, hmem⟩ := advance_all hadvance hput
      exact ⟨bytes, hpack, List.mem_append_left _ hmem⟩

theorem committed_inPlace (hs : Tidy s app) (ha : a.Linted) (h : a.Writes app (yamlKey app)) :
    InPlace (a.after app s) app a.assets ∧
      Stored (a.after app s) (yamlKey app) (.yaml a.yamlText) := by
  constructor
  · intro put hput
    obtain ⟨bytes, hpack, hmem⟩ := uploads_written h hput
    exact stored_of_written hs.indexed ha (List.mem_append_left _ hput) hpack hmem
  · obtain ⟨bytes, hmem⟩ := h
    obtain ⟨content, hput, hpack⟩ := mem_writes hmem
    obtain rfl := (Prod.mk.inj (script_unique ha hput yaml_mem_script rfl)).2
    exact stored_of_written hs.indexed ha hput hpack hmem

-- Before the catalog is written nothing is deleted, so what is not written stays.
theorem uncommitted_get (h : ¬ a.Writes app (yamlKey app))
    (hwrites : ¬ a.Writes app key)
    (hflag : ∀ put ∈ script app a.assets a.yamlText, key ≠ put.1 ++ ":enc".toList) :
    (a.after app s).get (kvKey key) = s.get (kvKey key) := by
  rcases a.after_cases app s key with hafter | ⟨-, ⟨rest, hadvance⟩, -⟩
  · rw [hafter]
    apply get_writeAll_of_ne
    intro write hwrite
    obtain ⟨content, hput, -⟩ := mem_writes hwrite
    refine ⟨?_, hflag _ hput⟩
    rintro rfl
    exact hwrites ⟨write.2, hwrite⟩
  · obtain ⟨bytes, -, hmem⟩ := advance_all hadvance yaml_mem_script
    exact absurd ⟨bytes, hmem⟩ h

theorem uncommitted_asset (h : ¬ a.Writes app (yamlKey app)) {n : Text}
    (hplain : ':' ∉ n) (hwrites : ¬ a.Writes app (bytesKey app n)) :
    (a.after app s).get (kvKey (bytesKey app n)) = s.get (kvKey (bytesKey app n)) := by
  refine uncommitted_get h hwrites fun put hput => ?_
  rcases key_of_mem_script hput with ⟨asset, -, m, -, hkey⟩ | hkey | hkey
  · rw [hkey]
    exact bytesKey_ne_flag hplain m
  · rw [hkey]
    exact bytesKey_ne_yamlKey_flag
  · rw [hkey]
    exact bytesKey_ne_indexKey_flag

theorem uncommitted_earlier (hs : Tidy s app) (hfirst : first.Linted) (hsecond : second.Linted)
    (h : ¬ second.Writes app (yamlKey app)) (hplace : InPlace s app first.assets) :
    InPlace (second.after app s) app first.assets ↔
      ∀ put ∈ uploads app first.assets, ∀ write ∈ second.writes app, write.1 = put.1 →
        Msgpack.packb put.2.toValue = some write.2 := by
  constructor
  · intro hafter put hput write hwrite hkey
    obtain ⟨content, hmem, hpack⟩ := mem_writes hwrite
    have hstored := stored_of_written hs.indexed hsecond hmem hpack hwrite
    rw [hkey] at hstored
    rw [stored_unique (hafter put hput) hstored]
    exact hpack
  · intro hkeeps put hput
    by_cases hwrites : second.Writes app put.1
    · obtain ⟨bytes, hmem⟩ := hwrites
      have hpack := hkeeps put hput (put.1, bytes) hmem rfl
      obtain ⟨content, hscript, hpack'⟩ := mem_writes hmem
      obtain ⟨stored, hstored, hget⟩ := stored_of_written hs.indexed hsecond hscript hpack' hmem
      obtain rfl := Option.some.inj (hpack'.symm.trans hstored)
      exact ⟨bytes, hpack, hget⟩
    · obtain ⟨bytes, hpack, hget⟩ := hplace put hput
      obtain ⟨asset, hasset, n, hn, hkey⟩ := key_of_mem_uploads hput
      refine ⟨bytes, hpack, ?_⟩
      rw [hkey] at hwrites hget ⊢
      rw [uncommitted_asset h (nameOf_plain (hfirst.1 asset hasset) hn) hwrites]
      exact hget

theorem uncommitted_new (hs : Tidy s app) (hsecond : second.Linted)
    (h : ¬ second.Writes app (yamlKey app)) :
    InPlace (second.after app s) app second.assets ↔
      ∀ put ∈ uploads app second.assets, second.Writes app put.1 ∨ Stored s put.1 put.2 := by
  have hkept : ∀ put ∈ uploads app second.assets, ¬ second.Writes app put.1 →
      (second.after app s).get (kvKey put.1) = s.get (kvKey put.1) := by
    intro put hput hwrites
    obtain ⟨asset, hasset, n, hn, hkey⟩ := key_of_mem_uploads hput
    rw [hkey] at hwrites ⊢
    exact uncommitted_asset h (nameOf_plain (hsecond.1 asset hasset) hn) hwrites
  constructor
  · intro hafter put hput
    by_cases hwrites : second.Writes app put.1
    · exact .inl hwrites
    · obtain ⟨bytes, hpack, hget⟩ := hafter put hput
      rw [hkept put hput hwrites] at hget
      exact .inr ⟨bytes, hpack, hget⟩
  · intro hbefore put hput
    by_cases hwrites : second.Writes app put.1
    · obtain ⟨bytes, hmem⟩ := hwrites
      obtain ⟨content, hscript, hpack⟩ := mem_writes hmem
      obtain rfl := (Prod.mk.inj (script_unique hsecond hscript
        (List.mem_append_left _ hput) rfl)).2
      exact stored_of_written hs.indexed hsecond hscript hpack hmem
    · rcases hbefore put hput with hwritten | ⟨bytes, hpack, hget⟩
      · exact absurd hwritten hwrites
      · refine ⟨bytes, hpack, ?_⟩
        rw [hkept put hput hwrites]
        exact hget

theorem consistent_iff_safelyStopped (hs : Tidy s app) (hshaped : Shaped sha256 s app)
    (hfirst : first.Linted ∧ first.Loaded sha256) (hsecond : second.Linted ∧ second.Loaded sha256)
    (hplace : InPlace s app first.assets) (hyaml : Stored s (yamlKey app) (.yaml first.yamlText)) :
    Consistent sha256 (second.after app s) app first second ↔
      SafelyStopped s app first second := by
  have hafter : Shaped sha256 (second.after app s) app := shaped_after hshaped hsecond.1 hsecond.2
  rw [Consistent, served_iff_inPlace hafter hfirst.1 hfirst.2,
    served_iff_inPlace hafter hsecond.1 hsecond.2, SafelyStopped]
  by_cases hcommit : second.Writes app (yamlKey app)
  · obtain ⟨hnew, hcatalog⟩ := committed_inPlace hs hsecond.1 hcommit
    exact ⟨fun _ => .inl hcommit, fun _ => .inr ⟨hcatalog, hnew⟩⟩
  · rw [uncommitted_earlier hs hfirst.1 hsecond.1 hcommit hplace,
      uncommitted_new hs hsecond.1 hcommit]
    have hcatalog : Stored (second.after app s) (yamlKey app) (.yaml first.yamlText) := by
      obtain ⟨bytes, hpack, hget⟩ := hyaml
      refine ⟨bytes, hpack, ?_⟩
      rw [uncommitted_get hcommit hcommit fun put hput =>
        script_apart hsecond.1 (@yaml_mem_script app second.assets second.yamlText) hput]
      exact hget
    have hsame : Stored (second.after app s) (yamlKey app) (.yaml second.yamlText) ↔
        first.yamlText = second.yamlText := by
      constructor
      · intro hstored
        exact Content.yaml.inj (stored_unique hcatalog hstored)
      · intro htext
        rw [← htext]
        exact hcatalog
    rw [hsame]
    constructor
    · rintro (⟨-, hkeeps⟩ | ⟨htext, hnew⟩)
      · exact .inr (.inl hkeeps)
      · exact .inr (.inr ⟨htext, hnew⟩)
    · rintro (hwritten | hkeeps | ⟨htext, hnew⟩)
      · exact absurd hwritten hcommit
      · exact .inl ⟨hcatalog, hkeeps⟩
      · exact .inr ⟨htext, hnew⟩

-- Wherever a publish stops, after one that came to its end, the stored catalog has its assets
-- exactly when it stopped safely.
theorem crash_consistent_iff {history : List Attempt} (hfresh : Unpublished s app)
    (hhistory : ∀ a ∈ history, a.Linted ∧ a.Loaded sha256)
    (hfirst : first.Linted ∧ first.Loaded sha256) (hsecond : second.Linted ∧ second.Loaded sha256)
    (hdone : first.Completes app (reached app s history)) :
    Consistent sha256 (second.after app (first.after app (reached app s history))) app first
        second ↔
      SafelyStopped (first.after app (reached app s history)) app first second := by
  have htidy : Tidy (reached app s history) app :=
    tidy_reached (tidy_unpublished hfresh) fun a ha => (hhistory a ha).1
  have hshaped : Shaped sha256 (reached app s history) app :=
    shaped_reached (shaped_unpublished hfresh) hhistory
  refine consistent_iff_safelyStopped (tidy_after htidy hfirst.1)
    (shaped_after hshaped hfirst.1 hfirst.2) hfirst hsecond ?_ ?_
  · exact fun put hput => stored_after htidy.indexed hfirst.1 hdone (List.mem_append_left _ hput)
  · exact stored_after htidy.indexed hfirst.1 hdone yaml_mem_script

theorem one_loaded : one.Loaded fun _ => ['0'] := by
  intro asset hasset
  obtain rfl := List.mem_singleton.mp hasset
  rfl

-- The same file with other bytes, cut off in front of the catalog.
def redrawn : Attempt where
  assets := [⟨"a.png".toList, "image/png".toList, [2], ['0'], 1⟩]
  yamlText := ['z']
  fates := [.works, .works]

theorem redrawn_linted : redrawn.Linted ∧ redrawn.Loaded fun _ => ['0'] := by
  refine ⟨⟨fun asset hasset => ?_, by simp [redrawn]⟩, fun asset hasset => ?_⟩
  · obtain rfl := List.mem_singleton.mp hasset
    exact ⟨by decide, by decide, by decide, by decide⟩
  · obtain rfl := List.mem_singleton.mp hasset
    rfl

theorem republish_consistent :
    Consistent (fun _ => ['0']) (one.after ['l'] (one.after ['l'] Store.empty)) ['l'] one one ↔
      SafelyStopped (one.after ['l'] Store.empty) ['l'] one one :=
  @crash_consistent_iff (fun _ => ['0']) Store.empty ['l'] one one [] ⟨fun _ => rfl, rfl⟩
    (fun _ ha => nomatch ha) ⟨one_linted, one_loaded⟩ ⟨one_linted, one_loaded⟩ one_completes

-- The prior catalog is left with an asset of the new bundle.
theorem redrawn_inconsistent :
    ¬ ∀ (sha256 : Bytes → Text) (app : Text) (s : Store) (history : List Attempt)
      (first second : Attempt), Unpublished s app →
      (∀ a ∈ history, a.Linted ∧ a.Loaded sha256) → first.Linted ∧ first.Loaded sha256 →
      second.Linted ∧ second.Loaded sha256 → first.Completes app (reached app s history) →
        Consistent sha256 (second.after app (first.after app (reached app s history))) app first
          second := by
  intro hall
  have hfresh : Unpublished Store.empty ['l'] := ⟨fun _ => rfl, rfl⟩
  have htidy : Tidy (one.after ['l'] Store.empty) ['l'] :=
    tidy_after (tidy_unpublished hfresh) one_linted
  have hpack : Msgpack.packb (Content.bytes [2]).toValue = some [0xc4, 1, 2] := rfl
  have hwrites : redrawn.writes ['l'] = [(bytesKey ['l'] "a.png".toList, [0xc4, 1, 2])] := rfl
  have hbytes : Stored (redrawn.after ['l'] (one.after ['l'] Store.empty))
      (bytesKey ['l'] "a.png".toList) (.bytes [2]) := by
    refine stored_of_written htidy.indexed redrawn_linted.1 (bytes_mem_script List.mem_cons_self) hpack ?_
    rw [hwrites]
    exact List.mem_cons_self
  have hshaped : Shaped (fun _ => ['0']) (redrawn.after ['l'] (one.after ['l'] Store.empty)) ['l'] :=
    shaped_after (shaped_after (shaped_unpublished hfresh) one_linted one_loaded) redrawn_linted.1
      redrawn_linted.2
  rcases hall (fun _ => ['0']) ['l'] Store.empty [] one redrawn hfresh (fun _ ha => nomatch ha)
    ⟨one_linted, one_loaded⟩ redrawn_linted one_completes with ⟨-, hserved⟩ | ⟨hyaml, -⟩
  · have hplace := (served_iff_inPlace hshaped one_linted one_loaded).mp hserved
    have hold : Stored _ (bytesKey ['l'] "a.png".toList) (.bytes [1]) :=
      hplace (bytesKey ['l'] "a.png".toList, .bytes [1]) List.mem_cons_self
    exact absurd (Content.bytes.inj (stored_unique hbytes hold)) (by decide)
  · have hcommit : ¬ redrawn.Writes ['l'] (yamlKey ['l']) := by
      rintro ⟨bytes, hmem⟩
      rw [hwrites] at hmem
      exact bytesKey_ne_yamlKey (Prod.mk.inj (List.mem_singleton.mp hmem)).1.symm
    obtain ⟨bytes, hpack', hget⟩ :=
      stored_after (tidy_unpublished hfresh).indexed one_linted one_completes yaml_mem_script
    have hold : Stored (redrawn.after ['l'] (one.after ['l'] Store.empty)) (yamlKey ['l'])
        (.yaml ['y']) := by
      refine ⟨bytes, hpack', ?_⟩
      rw [uncommitted_get hcommit hcommit fun put hput => script_apart redrawn_linted.1
        (@yaml_mem_script ['l'] redrawn.assets redrawn.yamlText) hput]
      exact hget
    exact absurd (Content.yaml.inj (stored_unique hyaml hold)) (by decide)

end Stopped

end Stra2us.Publish
