import Stra2us.Acl.Matching
import Stra2us.Foundation.JsonDocument
import Stra2us.Server.Sequential
import Stra2us.Server.Api

namespace Stra2us.Acl

open Foundation Server

def provisionedAcl (clientId app : Text) : Value :=
  permissionsAcl [permission (app ++ '/' :: clientId) "rw".toList,
    permission (app ++ "/public".toList) "rw".toList]

-- A provisioning went through, and this is how verification reads the record it left.
def Provisioned (site : Site) (clientId app : Text) (acl : Value) : Prop :=
  ∃ (username secret : Text) (w : World),
    let ran := (provisionDevice site username clientId app secret).runOn w
    ran.1 = .ok () ∧ aclOfRecord site.jsonDepth (ran.2.store.get (clientAclKey clientId)) = .ok acl

-- What an ACL gives access to, in one way or the other.
def Reaches (acl : Value) (resource : Resource) : Prop :=
  ∃ mode, checkAcl acl resource.requested mode = .ok ()

-- A path at a root or below it.
def Within (root path : Text) : Prop :=
  path = root ∨ root ++ "/".toList <+: path

def InNamespace (clientId app path : Text) : Prop :=
  Within (app ++ '/' :: clientId) path ∨ Within (app ++ "/public".toList) path

-- The device's own namespace and the shared one, by their names or behind the stash prefix.
def AtHome (clientId app path : Text) : Prop :=
  InNamespace clientId app path ∨
    ∃ rest, path = catalogStashPrefix ++ rest ∧ InNamespace clientId app rest

-- The keys the page renderer, the asset route and the publisher read.
inductive CatalogKey (app : Text) : Text → Prop
  | document : CatalogKey app (catalogStashPrefix ++ app)
  | asset (filename : Text) :
      CatalogKey app (catalogStashPrefix ++ app ++ "/_assets/".toList ++ filename)
  | index : CatalogKey app (catalogStashPrefix ++ app ++ "/_assets_index".toList)

def OfApp (app path : Text) : Prop :=
  Within app path ∨ Within (catalogStashPrefix ++ app) path

section Record

variable {site : Site} {clientId app : Text}

theorem textual_permission (depth : Nat) (pre access : Text) :
    Json.Textual (depth + 1) (permission pre access) := by
  refine ⟨[("prefix".toList, .str pre), ("access".toList, .str access)], rfl, ?_, ?_⟩
  · have hnames : ["prefix".toList, "access".toList].Nodup := by decide
    exact hnames
  · intro m hm
    simp only [List.mem_cons, List.not_mem_nil, or_false] at hm
    rcases hm with rfl | rfl
    · cases depth <;> trivial
    · cases depth <;> trivial

theorem textual_permissionsAcl {depth : Nat} {perms : List Value}
    (h : ∀ perm ∈ perms, Json.Textual (depth + 1) perm) :
    Json.Textual (depth + 3) (permissionsAcl perms) := by
  refine ⟨[("permissions".toList, _)], rfl, List.nodup_singleton _, ?_⟩
  intro m hm
  obtain rfl := List.mem_singleton.mp hm
  exact h

theorem textual_provisionedAcl (depth : Nat) (clientId app : Text) :
    Json.Textual (depth + 3) (provisionedAcl clientId app) := by
  apply textual_permissionsAcl
  intro perm hperm
  simp only [List.mem_cons, List.not_mem_nil, or_false] at hperm
  rcases hperm with rfl | rfl
  · exact textual_permission _ _ _
  · exact textual_permission _ _ _

-- The record nests three deep, which is found out when it is written.
theorem depth_of_dumpRecord {raw : Bytes}
    (h : dumpRecord site (provisionedAcl clientId app) = .ok raw) : 3 ≤ site.jsonDepth := by
  by_contra hlow
  have hcases : site.jsonDepth = 0 ∨ site.jsonDepth = 1 ∨ site.jsonDepth = 2 := by omega
  unfold dumpRecord at h
  rcases hcases with hd | hd | hd
  · rw [hd] at h
    cases h
  · rw [hd] at h
    cases h
  · rw [hd] at h
    cases h

theorem dumpRecord_provisionedAcl (hdepth : 3 ≤ site.jsonDepth) (clientId app : Text) :
    ∃ raw, dumpRecord site (provisionedAcl clientId app) = .ok raw ∧
      aclOfRecord site.jsonDepth (some raw) = .ok (provisionedAcl clientId app) := by
  obtain ⟨depth, hd⟩ : ∃ depth, site.jsonDepth = depth + 3 := ⟨site.jsonDepth - 3, by omega⟩
  obtain ⟨text, hdumps, hloads⟩ := (textual_provisionedAcl depth clientId app).loads_dumps
  refine ⟨utf8 text, ?_, ?_⟩
  · simp only [dumpRecord, hd, hdumps]
  · have hload : loadRecord site.jsonDepth (utf8 text) = .ok (provisionedAcl clientId app) := by
      simp only [loadRecord, utf8Decode_utf8, hd, hloads]
    cases hraw : utf8 text with
    | nil =>
        obtain rfl : text = [] := utf8_injective (hraw.trans utf8_nil.symm)
        have hempty : Json.loads (depth + 3) [] = .error .value := rfl
        rw [hempty] at hloads
        cases hloads
    | cons byte rest =>
        rw [hraw] at hload
        simp only [aclOfRecord, hload]
        rfl

theorem clientAclKey_ne_deviceToAppKey (clientId other : Text) :
    clientAclKey clientId ≠ deviceToAppKey other := by
  intro h
  injection h with h _
  exact absurd h (by decide)

theorem Provisioned.check {acl : Value} (h : Provisioned site clientId app acl) :
    checkProvision clientId app = .ok () ∧ acl = provisionedAcl clientId app := by
  obtain ⟨username, secret, w, hran, hacl⟩ := h
  obtain ⟨w', hrun⟩ : ∃ w', (provisionDevice site username clientId app secret).runOn w =
      (.ok (), w') := ⟨_, Prod.ext hran rfl⟩
  rw [hrun] at hacl
  obtain ⟨_, w₀, _, hadmitted⟩ := Handler.runOn_bind_ok.mp hrun
  obtain ⟨_, w₁, hcheck, hrest⟩ := Handler.runOn_bind_ok.mp hadmitted
  obtain ⟨_, w₂, _, hstored⟩ := Handler.runOn_bind_ok.mp hrest
  have htail : ∃ w₃, (do
      let acl ← Handler.ofExcept (dumpRecord site (provisionedAcl clientId app))
      Handler.set (clientAclKey clientId) acl
      Handler.set (deviceToAppKey clientId) (utf8 app)).runOn w₃ = (.ok (), w') := by
    dsimp only at hstored
    split at hstored
    · obtain ⟨_, w₃, _, hwritten⟩ := Handler.runOn_bind_ok.mp hstored
      exact ⟨w₃, hwritten⟩
    · exact ⟨w₂, hstored⟩
  obtain ⟨w₃, hwritten⟩ := htail
  obtain ⟨raw, w₄, hraw, hset⟩ := Handler.runOn_bind_ok.mp hwritten
  have hdump : dumpRecord site (provisionedAcl clientId app) = .ok raw := congrArg Prod.fst hraw
  refine ⟨congrArg Prod.fst hcheck, ?_⟩
  have hworld : w'.store.get (clientAclKey clientId) = some raw := by
    obtain rfl := congrArg Prod.snd hset
    change ((w₄.store.set (clientAclKey clientId) raw).set (deviceToAppKey clientId) _).get _ = _
    rw [Store.get_set_of_ne _ (clientAclKey_ne_deviceToAppKey _ _), Store.get_set_self]
  obtain ⟨raw', hdump', hread⟩ := dumpRecord_provisionedAcl (depth_of_dumpRecord hdump) clientId app
  obtain rfl := Except.ok.inj (hdump.symm.trans hdump')
  rw [hworld] at hacl
  exact Except.ok.inj (hacl.symm.trans hread)

theorem requireAdminSuperuser_rescue {username : Text} (hname : username ≠ [])
    (hrescue : username ∈ site.rescueUsers) {w : World}
    (hnone : w.store.get (adminAclKey username) = none) :
    (requireAdminSuperuser site.jsonDepth site.rescueUsers username).runOn w = (.ok (), w) := by
  have hacl : adminAclOfRecord site.jsonDepth site.rescueUsers username none = .ok rescueAcl := by
    simp [adminAclOfRecord, truthy, hrescue]
  have hload : (getAdminContext site.jsonDepth site.rescueUsers username).runOn w =
      (.ok rescueAcl, w) := by
    unfold getAdminContext
    rw [if_neg hname]
    change (Handler.ofExcept (adminAclOfRecord _ _ username (w.store.get _))).runOn w = _
    rw [hnone, hacl]
    rfl
  unfold requireAdminSuperuser
  rw [Handler.runOn_bind_of_ok hload]
  rfl

theorem provisioned_of_check (hcheck : checkProvision clientId app = .ok ())
    (hdepth : 3 ≤ site.jsonDepth) {username : Text} (hname : username ≠ [])
    (hrescue : username ∈ site.rescueUsers) :
    Provisioned site clientId app (provisionedAcl clientId app) := by
  obtain ⟨raw, hdump, hread⟩ := dumpRecord_provisionedAcl hdepth clientId app
  let w : World := ⟨.empty, 0, 0⟩
  have hrun : (provisionDevice site username clientId app []).runOn w = (.ok (),
      { w with store := ((w.store.set (clientSecretKey clientId) []).set (clientAclKey clientId)
        raw).set (deviceToAppKey clientId) (utf8 app) }) := by
    unfold provisionDevice
    rw [Handler.runOn_bind_of_ok (requireAdminSuperuser_rescue hname hrescue rfl), hcheck]
    change (Handler.ofExcept (dumpRecord site (provisionedAcl clientId app)) >>= _).runOn _ = _
    rw [hdump]
    rfl
  refine ⟨username, [], w, congrArg Prod.fst hrun, ?_⟩
  rw [hrun]
  change aclOfRecord _ (((w.store.set _ []).set _ raw).set _ _ |>.get _) = _
  rw [Store.get_set_of_ne _ (clientAclKey_ne_deviceToAppKey _ _), Store.get_set_self]
  exact hread

end Record

section Reach

variable {clientId app : Text}

theorem coversPath_iff_within {pre path : Text} (h : '/' ∈ pre) :
    CoversPath pre path ↔ Within pre path := by
  refine or_iff_right ?_
  rintro rfl
  exact absurd h (by decide)

theorem covers_iff_within {pre path : Text} (h : '/' ∈ pre) : Covers pre path ↔
    Within pre path ∨ ∃ rest, path = catalogStashPrefix ++ rest ∧ Within pre rest := by
  unfold Covers
  rw [coversPath_iff_within h]
  refine or_congr_right ?_
  constructor
  · rintro ⟨rest, -, hpath, hcovers⟩
    exact ⟨rest, hpath, (coversPath_iff_within h).mp hcovers⟩
  · rintro ⟨rest, hpath, hwithin⟩
    refine ⟨rest, ?_, hpath, (coversPath_iff_within h).mpr hwithin⟩
    rintro rfl
    rcases hwithin with hempty | hbelow
    · rw [← hempty] at h
      exact absurd h List.not_mem_nil
    · have hnil := List.prefix_nil.mp hbelow
      rw [List.append_eq_nil_iff] at hnil
      rw [hnil.1] at h
      exact absurd h List.not_mem_nil

theorem permCovers_permission (pre access path : Text) :
    PermCovers path (permission pre access) ↔ Covers pre path := by
  have hpre : permPrefix (permission pre access) = .ok (some pre) := rfl
  constructor
  · rintro ⟨text, htext, hcovers⟩
    rw [hpre] at htext
    obtain rfl := Option.some.inj (Except.ok.inj htext)
    exact hcovers
  · intro hcovers
    exact ⟨pre, hpre, hcovers⟩

-- The two entries give full access, so neither is in the other's way.
theorem reaches_iff (resource : Resource) :
    Reaches (provisionedAcl clientId app) resource ↔ AtHome clientId app resource.path := by
  have hgood (pre : Text) : ¬ Malformed (permission pre "rw".toList) := by
    rintro ⟨exn, hexn⟩
    cases hexn
  have hdecides (pre : Text) : Decides resource.path (permission pre "rw".toList) ↔
      Covers pre resource.path := by
    unfold Decides
    rw [or_iff_right (hgood pre), permCovers_permission]
  have hgrants (mode : Mode) (pre : Text) : Grants mode (permission pre "rw".toList) :=
    ⟨hgood pre, .inr rfl⟩
  have hshared : '/' ∈ app ++ "/public".toList := by simp
  have hown : '/' ∈ app ++ '/' :: clientId := by simp
  have hmode (mode : Mode) :
      checkAcl (provisionedAcl clientId app) resource.requested mode = .ok () ↔
        Covers (app ++ '/' :: clientId) resource.path ∨
          Covers (app ++ "/public".toList) resource.path := by
    refine allowed_iff.trans (Iff.trans (firstMatch_iff_someMatch.mpr ?_) ?_)
    · rintro ⟨before, perm, after, hperms, -, -, hdenies, -⟩
      have hmem : perm ∈ [permission (app ++ '/' :: clientId) "rw".toList,
          permission (app ++ "/public".toList) "rw".toList] := by
        rw [hperms]
        simp
      simp only [List.mem_cons, List.not_mem_nil, or_false] at hmem
      rcases hmem with rfl | rfl
      · exact hdenies (hgrants mode _)
      · exact hdenies (hgrants mode _)
    · simp only [SomeMatch, List.mem_cons, List.not_mem_nil, or_false, exists_eq_or_imp,
        exists_eq_left, hdecides, hgrants, and_true]
  have : Nonempty Mode := ⟨.read⟩
  simp only [Reaches, hmode, exists_const, covers_iff_within hown, covers_iff_within hshared]
  unfold AtHome InNamespace
  constructor
  · rintro ((h | ⟨rest, hpath, h⟩) | h | ⟨rest, hpath, h⟩)
    · exact .inl (.inl h)
    · exact .inr ⟨rest, hpath, .inl h⟩
    · exact .inl (.inr h)
    · exact .inr ⟨rest, hpath, .inr h⟩
  · rintro ((h | h) | ⟨rest, hpath, h | h⟩)
    · exact .inl (.inl h)
    · exact .inr (.inl h)
    · exact .inl (.inr ⟨rest, hpath, h⟩)
    · exact .inr (.inr ⟨rest, hpath, h⟩)

end Reach

section Segments

variable {a b c x y : Text}

-- Paths are compared by their first segments.
theorem segment_inj (ha : '/' ∉ a) (hb : '/' ∉ b) :
    a ++ '/' :: x = b ++ '/' :: y ↔ a = b ∧ x = y := by
  constructor
  · intro h
    rcases List.append_eq_append_iff.mp h with ⟨u, rfl, hu⟩ | ⟨u, rfl, hu⟩
    · cases u with
      | nil => simpa using hu
      | cons d u =>
          obtain ⟨rfl, -⟩ := List.cons.inj hu
          exact absurd (by simp) hb
    · cases u with
      | nil => simpa using hu.symm
      | cons d u =>
          obtain ⟨rfl, -⟩ := List.cons.inj hu
          exact absurd (by simp) ha
  · rintro ⟨rfl, rfl⟩
    rfl

theorem within_below (ha : '/' ∉ a) (hb : '/' ∉ b) :
    Within (a ++ '/' :: c) (b ++ '/' :: y) ↔ a = b ∧ Within c y := by
  have hroot : a ++ '/' :: c ++ "/".toList = a ++ '/' :: (c ++ "/".toList) := by simp
  unfold Within
  rw [eq_comm, segment_inj ha hb, hroot]
  constructor
  · rintro (⟨rfl, rfl⟩ | ⟨rest, hrest⟩)
    · exact ⟨rfl, .inl rfl⟩
    · rw [List.append_assoc, List.cons_append, segment_inj ha hb] at hrest
      exact ⟨hrest.1, .inr ⟨rest, hrest.2⟩⟩
  · rintro ⟨rfl, rfl | ⟨rest, rfl⟩⟩
    · exact .inl ⟨rfl, rfl⟩
    · exact .inr ⟨rest, by simp⟩

theorem within_segment (hb : '/' ∉ b) : Within a b ↔ b = a := by
  refine or_iff_left ?_
  rintro ⟨rest, rfl⟩
  exact hb (by simp)

theorem within_first (ha : '/' ∉ a) (hb : '/' ∉ b) : Within a (b ++ '/' :: y) ↔ a = b := by
  have hroot (rest : Text) : a ++ "/".toList ++ rest = a ++ '/' :: rest := by simp
  constructor
  · rintro (h | ⟨rest, hrest⟩)
    · rw [← h] at ha
      exact absurd (by simp) ha
    · rw [hroot, segment_inj ha hb] at hrest
      exact hrest.1
  · rintro rfl
    exact .inr ⟨y, hroot y⟩

theorem within_iff : Within a x ↔ x = a ∨ ∃ rest, x = a ++ '/' :: rest := by
  have hroot (rest : Text) : a ++ "/".toList ++ rest = a ++ '/' :: rest := by simp
  refine or_congr_right ?_
  constructor
  · rintro ⟨rest, rfl⟩
    exact ⟨rest, hroot rest⟩
  · rintro ⟨rest, rfl⟩
    exact ⟨rest, hroot rest⟩

end Segments

section Trees

variable {clientId app other path rest : Text}

theorem slash_free_of_check (h : checkProvision clientId app = .ok ()) :
    clientId ∉ reservedClientIds ∧ '/' ∉ clientId ∧ '/' ∉ app := by
  unfold checkProvision rejectIfReserved at h
  by_cases hreserved : clientId ∈ reservedClientIds
  · rw [if_pos hreserved] at h
    cases h
  · rw [if_neg hreserved] at h
    change (if strip clientId = [] then _ else _) = _ at h
    split_ifs at h with hid happ hslash
    exact ⟨hreserved, fun hmem => hslash (.inr hmem), fun hmem => hslash (.inl hmem)⟩

theorem stash_append (path : Text) : catalogStashPrefix ++ path = "_catalog".toList ++ '/' :: path :=
  rfl

theorem atHome_stash (happ : '/' ∉ app) (rest : Text) :
    AtHome clientId app (catalogStashPrefix ++ rest) ↔
      (app = "_catalog".toList ∧ (Within clientId rest ∨ Within "public".toList rest)) ∨
        InNamespace clientId app rest := by
  have hstash : '/' ∉ "_catalog".toList := by decide
  have hpublic : app ++ "/public".toList = app ++ '/' :: "public".toList := rfl
  unfold AtHome
  refine or_congr ?_ ?_
  · unfold InNamespace
    rw [hpublic, stash_append, within_below happ hstash, within_below happ hstash, and_or_left]
  · constructor
    · rintro ⟨rest', hrest, h⟩
      rwa [List.append_cancel_left hrest]
    · intro h
      exact ⟨rest, rfl, h⟩

theorem inNamespace_below (happ : '/' ∉ app) (hother : '/' ∉ other) :
    InNamespace clientId app (other ++ '/' :: rest) ↔
      app = other ∧ (Within clientId rest ∨ Within "public".toList rest) := by
  have hpublic : app ++ "/public".toList = app ++ '/' :: "public".toList := rfl
  unfold InNamespace
  rw [hpublic, within_below happ hother, within_below happ hother, and_or_left]

theorem not_inNamespace (hother : '/' ∉ other) : ¬ InNamespace clientId app other := by
  rintro (h | h)
  · rw [within_segment hother] at h
    exact hother (by simp [h])
  · rw [within_segment hother] at h
    exact hother (by simp [h])

-- A device gets at a catalog tree as the app `_catalog` or under the name of a part of it.
theorem catalogKey_atHome_iff (hid : '/' ∉ clientId) (happ : '/' ∉ app) (hother : '/' ∉ other) :
    (∃ path, AtHome clientId app path ∧ CatalogKey other path) ↔
      (app = "_catalog".toList ∧ (clientId = other ∨ "public".toList = other)) ∨
        (app = other ∧ (clientId = "_assets".toList ∨ clientId = "_assets_index".toList)) := by
  have hpublic : '/' ∉ "public".toList := by decide
  have hassets : '/' ∉ "_assets".toList := by decide
  have hindex : '/' ∉ "_assets_index".toList := by decide
  have hasset (filename : Text) : catalogStashPrefix ++ other ++ "/_assets/".toList ++ filename =
      catalogStashPrefix ++ (other ++ '/' :: ("_assets".toList ++ '/' :: filename)) := by
    simp
  have hindexKey : catalogStashPrefix ++ other ++ "/_assets_index".toList =
      catalogStashPrefix ++ (other ++ '/' :: "_assets_index".toList) := by
    simp
  constructor
  · rintro ⟨path, hhome, hkey⟩
    cases hkey with
    | document =>
        rw [atHome_stash happ, within_segment hother, within_segment hother] at hhome
        rcases hhome with ⟨hcatalog, h⟩ | hname
        · exact .inl ⟨hcatalog, h.imp Eq.symm Eq.symm⟩
        · exact absurd hname (not_inNamespace hother)
    | asset filename =>
        rw [hasset, atHome_stash happ, within_first hid hother, within_first hpublic hother,
          inNamespace_below happ hother, within_first hid hassets,
          within_first hpublic hassets] at hhome
        rcases hhome with hcatalog | ⟨hsame, hassets | hshared⟩
        · exact .inl hcatalog
        · exact .inr ⟨hsame, .inl hassets⟩
        · exact absurd hshared (by decide)
    | index =>
        rw [hindexKey, atHome_stash happ, within_first hid hother, within_first hpublic hother,
          inNamespace_below happ hother, within_segment hindex, within_segment hindex] at hhome
        rcases hhome with hcatalog | ⟨hsame, hindex | hshared⟩
        · exact .inl hcatalog
        · exact .inr ⟨hsame, .inr hindex.symm⟩
        · exact absurd hshared (by decide)
  · rintro (⟨hcatalog, h⟩ | ⟨hsame, rfl | rfl⟩)
    · refine ⟨catalogStashPrefix ++ other, ?_, .document⟩
      rw [atHome_stash happ, within_segment hother, within_segment hother]
      exact .inl ⟨hcatalog, h.imp Eq.symm Eq.symm⟩
    · refine ⟨_, ?_, .asset []⟩
      rw [hasset, atHome_stash happ, inNamespace_below happ hother, within_first hassets hassets]
      exact .inr ⟨hsame, .inl rfl⟩
    · refine ⟨_, ?_, .index⟩
      rw [hindexKey, atHome_stash happ, inNamespace_below happ hother, within_segment hindex]
      exact .inr ⟨hsame, .inl rfl⟩

-- And at what belongs to another app only where one of the two is `_catalog`.
theorem ofApp_atHome_iff (hid : '/' ∉ clientId) (happ : '/' ∉ app) (hother : '/' ∉ other)
    (hne : app ≠ other) :
    (∃ path, AtHome clientId app path ∧ OfApp other path) ↔ other = "_catalog".toList ∨
      (app = "_catalog".toList ∧ (clientId = other ∨ "public".toList = other)) := by
  have hpublic : '/' ∉ "public".toList := by decide
  have hstash : '/' ∉ "_catalog".toList := by decide
  -- behind the stash prefix, where the other app's part starts with its name
  have hbehind {rest : Text} (hwithin : Within other rest)
      (hhome : AtHome clientId app (catalogStashPrefix ++ rest)) :
      app = "_catalog".toList ∧ (clientId = other ∨ "public".toList = other) := by
    rw [atHome_stash happ] at hhome
    rcases within_iff.mp hwithin with rfl | ⟨below, rfl⟩
    · rw [within_segment hother, within_segment hother] at hhome
      rcases hhome with ⟨hcatalog, h⟩ | hname
      · exact ⟨hcatalog, h.imp Eq.symm Eq.symm⟩
      · exact absurd hname (not_inNamespace hother)
    · rw [within_first hid hother, within_first hpublic hother,
        inNamespace_below happ hother] at hhome
      rcases hhome with hcatalog | ⟨hsame, -⟩
      · exact hcatalog
      · exact absurd hsame hne
  constructor
  · rintro ⟨path, hhome, hplain | halias⟩
    · rcases hhome with hown | ⟨rest, rfl, -⟩
      · rcases within_iff.mp hplain with rfl | ⟨below, rfl⟩
        · exact absurd hown (not_inNamespace hother)
        · rw [inNamespace_below happ hother] at hown
          exact absurd hown.1 hne
      · rw [stash_append, within_first hother hstash] at hplain
        exact .inl hplain
    · rw [stash_append] at halias
      rcases within_iff.mp halias with rfl | ⟨below, rfl⟩
      · exact .inr (hbehind (.inl rfl) hhome)
      · refine .inr (hbehind (within_iff.mpr (.inr ⟨below, rfl⟩)) ?_)
        rw [List.append_assoc] at hhome
        exact hhome
  · rintro (rfl | ⟨hcatalog, h⟩)
    · refine ⟨catalogStashPrefix ++ (app ++ '/' :: clientId), ?_, .inl ?_⟩
      · rw [atHome_stash happ, inNamespace_below happ happ]
        exact .inr ⟨rfl, .inl (.inl rfl)⟩
      · rw [stash_append, within_first hstash hstash]
    · refine ⟨catalogStashPrefix ++ other, ?_, .inr (.inl rfl)⟩
      rw [atHome_stash happ, within_segment hother, within_segment hother]
      exact .inl ⟨hcatalog, h.imp Eq.symm Eq.symm⟩

end Trees

section Isolation

variable {site : Site} {clientId app : Text} {acl : Value}

-- The names under which a catalog tree keeps its assets.
def IsTreeName (name : Text) : Prop :=
  name = "_assets".toList ∨ name = "_assets_index".toList

theorem reaches_none_iff (p : Text → Prop) :
    (∀ resource, Reaches (provisionedAcl clientId app) resource → ¬ p resource.path) ↔
      ¬ ∃ path, AtHome clientId app path ∧ p path := by
  constructor
  · rintro h ⟨path, hhome, hp⟩
    exact h (.kv path) ((reaches_iff (.kv path)).mpr hhome) hp
  · intro h resource hreaches hp
    exact h ⟨resource.path, (reaches_iff resource).mp hreaches, hp⟩

theorem reaches_no_catalogKey_iff (hid : '/' ∉ clientId) (happ : '/' ∉ app) :
    (∀ resource, Reaches (provisionedAcl clientId app) resource → ∀ other, '/' ∉ other →
      ¬ CatalogKey other resource.path) ↔ ¬ IsTreeName clientId ∧ app ≠ "_catalog".toList := by
  have hone (other : Text) (hother : '/' ∉ other) :
      (∀ resource, Reaches (provisionedAcl clientId app) resource →
        ¬ CatalogKey other resource.path) ↔
        ¬ ((app = "_catalog".toList ∧ (clientId = other ∨ "public".toList = other)) ∨
          (app = other ∧ IsTreeName clientId)) := by
    rw [reaches_none_iff (CatalogKey other), catalogKey_atHome_iff hid happ hother]
    rfl
  constructor
  · intro h
    have hown := (hone app happ).mp fun resource hreaches => h resource hreaches app happ
    have hnamed := (hone clientId hid).mp fun resource hreaches => h resource hreaches clientId hid
    exact ⟨fun hname => hown (.inr ⟨rfl, hname⟩), fun hcatalog => hnamed (.inl ⟨hcatalog, .inl rfl⟩)⟩
  · rintro ⟨hname, hcatalog⟩ resource hreaches other hother
    refine (hone other hother).mpr ?_ resource hreaches
    rintro (⟨happ', -⟩ | ⟨-, hname'⟩)
    · exact hcatalog happ'
    · exact hname hname'

theorem reaches_no_own_catalogKey_iff (hid : '/' ∉ clientId) (happ : '/' ∉ app) :
    (∀ resource, Reaches (provisionedAcl clientId app) resource →
      ¬ CatalogKey app resource.path) ↔
        ¬ IsTreeName clientId ∧ ¬ (app = "_catalog".toList ∧ clientId = "_catalog".toList) := by
  rw [reaches_none_iff (CatalogKey app), catalogKey_atHome_iff hid happ happ, not_or, and_comm]
  refine and_congr ?_ (not_congr ?_)
  · simp only [true_and]
    rfl
  · refine and_congr_right fun hcatalog => ?_
    rw [hcatalog]
    exact or_iff_left (by decide)

theorem reaches_apart_iff {otherId other : Text} (hid : '/' ∉ clientId) (happ : '/' ∉ app)
    (hotherId : '/' ∉ otherId) (hother : '/' ∉ other) (hne : app ≠ other) :
    (∀ resource, (Reaches (provisionedAcl clientId app) resource → ¬ OfApp other resource.path) ∧
      (Reaches (provisionedAcl otherId other) resource → ¬ OfApp app resource.path)) ↔
        app ≠ "_catalog".toList ∧ other ≠ "_catalog".toList := by
  rw [forall_and, reaches_none_iff (OfApp other), reaches_none_iff (OfApp app),
    ofApp_atHome_iff hid happ hother hne, ofApp_atHome_iff hotherId hother happ hne.symm]
  constructor
  · rintro ⟨hthere, hback⟩
    exact ⟨fun h => hback (.inl h), fun h => hthere (.inl h)⟩
  · rintro ⟨happ', hother'⟩
    constructor
    · rintro (h | ⟨h, -⟩)
      · exact hother' h
      · exact happ' h
    · rintro (h | ⟨h, -⟩)
      · exact happ' h
      · exact hother' h

-- Put together: a device keeps to its own namespace and the shared one; that this keeps it
-- off the catalog trees, and off the other apps, takes an app that is not `_catalog` and
-- an id that is no part of a catalog tree.
theorem provisioned_isolated_iff (h : Provisioned site clientId app acl) :
    (∀ resource, Reaches acl resource → AtHome clientId app resource.path) ∧
    ((∀ resource, Reaches acl resource → ¬ CatalogKey app resource.path) ↔
      ¬ IsTreeName clientId ∧ ¬ (app = "_catalog".toList ∧ clientId = "_catalog".toList)) ∧
    ((∀ resource, Reaches acl resource → ∀ other, '/' ∉ other →
      ¬ CatalogKey other resource.path) ↔ ¬ IsTreeName clientId ∧ app ≠ "_catalog".toList) ∧
    ∀ otherId other otherAcl, Provisioned site otherId other otherAcl → app ≠ other →
      ((∀ resource, (Reaches acl resource → ¬ OfApp other resource.path) ∧
        (Reaches otherAcl resource → ¬ OfApp app resource.path)) ↔
          app ≠ "_catalog".toList ∧ other ≠ "_catalog".toList) := by
  obtain ⟨hcheck, rfl⟩ := h.check
  obtain ⟨-, hid, happ⟩ := slash_free_of_check hcheck
  refine ⟨fun resource => (reaches_iff resource).mp, reaches_no_own_catalogKey_iff hid happ,
    reaches_no_catalogKey_iff hid happ, ?_⟩
  intro otherId other otherAcl hprovisioned hne
  obtain ⟨hcheck', rfl⟩ := hprovisioned.check
  obtain ⟨-, hotherId, hother⟩ := slash_free_of_check hcheck'
  exact reaches_apart_iff hid happ hotherId hother hne

def rescuedSite : Site :=
  { Site.small with rescueUsers := [['r']] }

theorem provisioned_rescued (hcheck : checkProvision clientId app = .ok ()) :
    Provisioned rescuedSite clientId app (provisionedAcl clientId app) :=
  provisioned_of_check hcheck (by decide) (List.cons_ne_nil 'r' []) (List.mem_singleton.mpr rfl)

theorem device_isolated :
    (∀ resource, Reaches (provisionedAcl ['d'] ['a']) resource → AtHome ['d'] ['a'] resource.path) ∧
    ∀ resource, Reaches (provisionedAcl ['d'] ['a']) resource → ¬ CatalogKey ['a'] resource.path := by
  have hprovisioned : Provisioned rescuedSite ['d'] ['a'] (provisionedAcl ['d'] ['a']) :=
    provisioned_rescued (by decide)
  have hisolated := provisioned_isolated_iff hprovisioned
  refine ⟨hisolated.1, hisolated.2.1.mpr ⟨?_, ?_⟩⟩
  · rintro (h | h)
    · cases h
    · cases h
  · rintro ⟨h, -⟩
    cases h

-- A device by the name of the assets may write the page its app shows.
theorem assets_device_not_isolated :
    ∃ acl, Provisioned rescuedSite "_assets".toList ['a'] acl ∧
      checkAcl acl "kv/_catalog/a/_assets/index.html".toList .write = .ok () ∧
      CatalogKey ['a'] "_catalog/a/_assets/index.html".toList := by
  refine ⟨_, provisioned_rescued (by decide), by rfl, ?_⟩
  exact .asset "index.html".toList

end Isolation

end Stra2us.Acl
