import Mathlib.Data.Char
import Mathlib.Data.List.Lex
import Mathlib.Data.List.ReduceOption
import Stra2us.Acl.Confine
import Stra2us.Backup.Collect

namespace Stra2us.Acl

open Foundation Server Backup

section Listing

-- The app of a prefix that ends in the client's id, behind its first slash. An app whose
-- name holds a lone surrogate cannot be sent back.
def appOfPrefix (clientId : Text) : Value → Except Exn (Option Text)
  | .str pre =>
      .ok (if '/' ∈ pre ∧ (pre.dropWhile (· ≠ '/')).drop 1 = clientId then
        some (pre.takeWhile (· ≠ '/')) else none)
  | .surrogates units =>
      if 0x2f ∈ units ∧ (units.dropWhile (· ≠ 0x2f)).drop 1 = clientId.map Char.toNat then
        .error (.python "UnicodeEncodeError".toList)
      else .ok none
  | .list items =>
      if items.any (isText · "/".toList) then .error (.python "AttributeError".toList)
      else .ok none
  | .dict pairs =>
      if pairs.any (isText ·.1 "/".toList) then .error (.python "AttributeError".toList)
      else .ok none
  | _ => .error (.python "TypeError".toList)

def deviceApp (clientId : Text) : List Value → Except Exn (Option Text)
  | [] => .ok none
  | perm :: rest => do
      match ← appOfPrefix clientId ((← getField perm "prefix".toList).getD (.str [])) with
      | some app => .ok (some app)
      | none => deviceApp clientId rest

def deviceAppForClient (clientAcl : Value) (clientId : Text) : Except Exn (Option Text) := do
  deviceApp clientId (← aclItems clientAcl)

-- The first access that is noted stays, unless it is None.
def noteAccess (best access : Value) : Value :=
  match best with
  | .none => access
  | _ => best

def maxAccess (path : Text) : Value → List Value → Except Exn Value
  | best, [] => .ok best
  | best, perm :: rest => do
      let pre := (← getField perm "prefix".toList).getD (.str [])
      if ← prefixMatches pre path then
        let access := (← getField perm "access".toList).getD (.str "r".toList)
        if isText access "rw".toList then .ok access
        else maxAccess path (noteAccess best access) rest
      else maxAccess path best rest

structure DeviceAdmins where
  clientId : Text
  app : Option Text
  admins : List (Text × Value)

variable (jsonDepth : Nat)

-- A record, or what stands for one that is missing or malformed.
def recordOr (default : Value) (raw : Option Bytes) : Except Exn Value :=
  if truthy raw then
    match loadRecord jsonDepth (raw.getD []) with
    | .ok acl => .ok acl
    | .error .recursion => .error (.python "RecursionError".toList)
    | .error _ => .ok default
  else .ok default

-- A row that is missing or malformed is passed over, as one without permissions is.
def adminAccess (path : Text) (raw : Option Bytes) : Except Exn (Option Value) := do
  let acl ← recordOr jsonDepth (permissionsAcl []) raw
  let access ← maxAccess path .none (← aclItems acl)
  .ok (if access.truthy then some access else none)

def adminsFor (s : Store) (path : Text) : Except Exn (List (Text × Value)) := do
  let rows ← (scanStrings s "admin_acls:".toList []).mapM fun username => do
    let access? ← adminAccess jsonDepth path (s.get (adminAclKey username))
    .ok (access?.map fun access => (username, access))
  .ok (rows.reduceOption.insertionSort fun a b => a.1 ≤ b.1)

def listAdminsForDevice (clientId : Text) (s : Store) : Except Exn DeviceAdmins :=
  if truthy (s.get (clientSecretKey clientId)) then do
    let clientAcl ← recordOr jsonDepth (permissionsAcl []) (s.get (clientAclKey clientId))
    match ← deviceAppForClient clientAcl clientId with
    | none => .ok ⟨clientId, none, []⟩
    | some app =>
        let admins ← adminsFor jsonDepth s (app ++ '/' :: clientId)
        .ok ⟨clientId, some app, admins⟩
  else .error (.http 404 "Client not found".toList)

end Listing

section Rows

variable {path : Text} {best : Value} {perm : Value} {items : List Value}

-- The rule of the listing: no alias of the catalog stash.
def PermMatches (path : Text) (perm : Value) : Prop :=
  ∃ pre, permPrefix perm = .ok (some pre) ∧ CoversPath pre path

def permAccess (perm : Value) : Value :=
  match getField perm "access".toList with
  | .ok (some access) => access
  | .ok none => .str "r".toList
  | .error _ => .none

def Writes (perm : Value) : Prop := permWrites perm = true

def Says (path : Text) (perm : Value) : Prop :=
  PermMatches path perm ∧ permAccess perm ≠ .none

def SaysSomething (perm : Value) : Prop := (permAccess perm).truthy = true

-- A malformed entry stops the listing, unless one that matches with `rw` comes first.
def Readable (path : Text) (items : List Value) : Prop :=
  ∀ before perm after, items = before ++ perm :: after → Malformed perm →
    SomeMatch (PermMatches path) Writes before

theorem isText_iff (value : Value) (text : Text) : isText value text = true ↔ value = .str text := by
  cases value with
  | str t => simp [isText]
  | _ => simp [isText]

theorem PermMatches.covers (h : PermMatches path perm) : PermCovers path perm := by
  obtain ⟨pre, hpre, hcovers⟩ := h
  exact ⟨pre, hpre, .inl hcovers⟩

theorem PermMatches.not_malformed (h : PermMatches path perm) : ¬ Malformed perm :=
  h.covers.not_malformed

theorem prefixMatches_eq (pre : Value) (path : Text) : prefixMatches pre path =
    (prefixText pre).map fun text? => text?.any fun text => decide (CoversPath text path) := by
  cases pre with
  | str text => rfl
  | _ => rfl

theorem maxAccess_malformed (h : Malformed perm) :
    ∃ exn, maxAccess path best (perm :: items) = .error exn := by
  obtain ⟨exn, hexn⟩ := h
  refine ⟨exn, ?_⟩
  rw [maxAccess]
  unfold permPrefix at hexn
  cases hfield : getField perm "prefix".toList with
  | error other =>
      rw [hfield] at hexn
      cases hexn
      rfl
  | ok pre? =>
      rw [hfield] at hexn
      simp only [bind, Except.bind, prefixMatches_eq] at hexn ⊢
      rw [hexn]
      rfl

theorem dict_of_not_malformed (h : ¬ Malformed perm) : ∃ pairs, perm = .dict pairs := by
  cases perm with
  | dict pairs => exact ⟨pairs, rfl⟩
  | _ => exact absurd ⟨_, rfl⟩ h

theorem permAccess_dict (pairs : List (Value × Value)) : permAccess (.dict pairs) =
    (Value.lookup pairs "access".toList).getD (.str "r".toList) := by
  unfold permAccess getField
  dsimp only
  cases Value.lookup pairs "access".toList with
  | none => rfl
  | some access => rfl

theorem isText_permAccess (h : ¬ Malformed perm) :
    isText (permAccess perm) "rw".toList = permWrites perm := by
  obtain ⟨pairs, rfl⟩ := dict_of_not_malformed h
  rw [permAccess_dict, isText_access]

theorem maxAccess_cons (h : ¬ Malformed perm) [Decidable (PermMatches path perm)] :
    maxAccess path best (perm :: items) =
      if PermMatches path perm then
        if permWrites perm then .ok (.str "rw".toList)
        else maxAccess path (noteAccess best (permAccess perm)) items
      else maxAccess path best items := by
  obtain ⟨pairs, rfl⟩ := dict_of_not_malformed h
  have hpre : permPrefix (.dict pairs) =
      prefixText ((Value.lookup pairs "prefix".toList).getD (.str [])) := rfl
  have hwrites := isText_permAccess h
  simp only [maxAccess, getField, bind, Except.bind, prefixMatches_eq, ← hpre, ← permAccess_dict,
    hwrites]
  cases htext : permPrefix (.dict pairs) with
  | error exn => exact absurd ⟨exn, htext⟩ h
  | ok text? =>
      have hmatches : PermMatches path (.dict pairs) ↔
          (text?.any fun text => decide (CoversPath text path)) = true := by
        cases text? with
        | none => simp [PermMatches, htext]
        | some text => simp [PermMatches, htext]
      simp only [Except.map, hmatches]
      by_cases hany : (text?.any fun text => decide (CoversPath text path)) = true
      · rw [if_pos hany, if_pos hany]
        by_cases hrw : permWrites (.dict pairs) = true
        · rw [if_pos hrw, if_pos hrw, (isText_iff _ _).mp (hwrites.trans hrw)]
        · rw [if_neg hrw, if_neg hrw]
      · rw [if_neg hany, if_neg hany]

theorem readable_nil (path : Text) : Readable path [] := by
  intro before perm after hsplit
  simp at hsplit

theorem not_readable_cons (h : Malformed perm) : ¬ Readable path (perm :: items) := by
  intro hreadable
  obtain ⟨q, hq, -⟩ := hreadable [] perm items rfl h
  cases hq

theorem readable_cons (h : ¬ Malformed perm) : Readable path (perm :: items) ↔
    (PermMatches path perm ∧ Writes perm) ∨ Readable path items := by
  constructor
  · intro hreadable
    by_cases hrw : PermMatches path perm ∧ Writes perm
    · exact .inl hrw
    · refine .inr fun before p after hsplit hbad => ?_
      have hsome := hreadable (perm :: before) p after (by rw [hsplit, List.cons_append]) hbad
      exact (someMatch_cons.mp hsome).resolve_left hrw
  · intro hcases before p after hsplit hbad
    cases before with
    | nil =>
        obtain ⟨rfl, -⟩ := List.cons.inj hsplit
        exact absurd hbad h
    | cons head before =>
        obtain ⟨rfl, htail⟩ := List.cons.inj hsplit
        cases hcases with
        | inl hrw => exact someMatch_cons.mpr (.inl hrw)
        | inr hreadable => exact someMatch_cons.mpr (.inr (hreadable before p after htail hbad))

theorem noteAccess_none (access : Value) : noteAccess .none access = access := rfl

theorem noteAccess_of_ne (h : best ≠ .none) (access : Value) : noteAccess best access = best := by
  cases best with
  | none => exact absurd rfl h
  | _ => rfl

-- The listing gets through the entries of a row exactly when it can read them.
theorem maxAccess_ok_iff : (∃ access, maxAccess path best items = .ok access) ↔
    Readable path items := by
  classical
  induction items generalizing best with
  | nil => exact ⟨fun _ => readable_nil path, fun _ => ⟨best, rfl⟩⟩
  | cons perm rest ih =>
      by_cases hbad : Malformed perm
      · obtain ⟨exn, hexn⟩ := @maxAccess_malformed path best perm rest hbad
        rw [hexn]
        exact ⟨fun ⟨access, h⟩ => (nomatch h), fun h => absurd h (not_readable_cons hbad)⟩
      · rw [maxAccess_cons hbad, readable_cons hbad]
        by_cases hmatches : PermMatches path perm
        · rw [if_pos hmatches]
          by_cases hrw : permWrites perm = true
          · rw [if_pos hrw]
            exact ⟨fun _ => .inl ⟨hmatches, hrw⟩, fun _ => ⟨_, rfl⟩⟩
          · rw [if_neg hrw, ih]
            exact ⟨.inr, fun h => h.resolve_left fun hboth => hrw hboth.2⟩
        · rw [if_neg hmatches, ih]
          exact ⟨.inr, fun h => h.resolve_left fun hboth => hmatches hboth.1⟩

-- It finds `rw` wherever a match has it, and otherwise the first access that is not None.
theorem maxAccess_spec {access : Value} (h : maxAccess path best items = .ok access) :
    (SomeMatch (PermMatches path) Writes items ∧ access = .str "rw".toList) ∨
      (¬ SomeMatch (PermMatches path) Writes items ∧
        (best ≠ .none ∧ access = best ∨
          best = .none ∧ (isText access "rw".toList = false) ∧
            (access.truthy = true ↔ FirstMatch (Says path) SaysSomething items))) := by
  classical
  induction items generalizing best with
  | nil =>
      obtain rfl : best = access := Except.ok.inj h
      have hnothing : ¬ SomeMatch (PermMatches path) Writes [] := fun ⟨q, hq, _⟩ => (nomatch hq)
      refine .inr ⟨hnothing, ?_⟩
      by_cases hnone : best = Value.none
      · subst hnone
        have hfirst : ¬ FirstMatch (Says path) SaysSomething [] := not_firstMatch_nil
        exact .inr ⟨rfl, rfl, fun htrue => (nomatch htrue), fun h => absurd h hfirst⟩
      · exact .inl ⟨hnone, rfl⟩
  | cons perm rest ih =>
      by_cases hbad : Malformed perm
      · obtain ⟨exn, hexn⟩ := @maxAccess_malformed path best perm rest hbad
        rw [hexn] at h
        cases h
      · rw [maxAccess_cons hbad] at h
        by_cases hmatches : PermMatches path perm
        · rw [if_pos hmatches] at h
          by_cases hrw : permWrites perm = true
          · rw [if_pos hrw] at h
            exact .inl ⟨someMatch_cons.mpr (.inl ⟨hmatches, hrw⟩), (Except.ok.inj h).symm⟩
          · rw [if_neg hrw] at h
            have hsome : SomeMatch (PermMatches path) Writes (perm :: rest) ↔
                SomeMatch (PermMatches path) Writes rest := by
              rw [someMatch_cons]
              exact ⟨fun hcases => hcases.resolve_left fun hboth => hrw hboth.2, .inr⟩
            rw [hsome]
            by_cases hnone : best = Value.none
            · subst hnone
              rw [noteAccess_none] at h
              have hcases := ih h
              by_cases hsilent : permAccess perm = .none
              · have hsays : ¬ Says path perm := fun hboth => hboth.2 hsilent
                rw [firstMatch_cons_of_not hsays]
                simpa [hsilent] using hcases
              · have hsays : Says path perm := ⟨hmatches, hsilent⟩
                have hplain : isText (permAccess perm) "rw".toList = false := by
                  rw [isText_permAccess hbad]
                  exact Bool.eq_false_iff.mpr hrw
                rw [firstMatch_cons_of_applies hsays]
                refine hcases.imp_right fun ⟨hnothing, hbest⟩ => ⟨hnothing, .inr ⟨rfl, ?_⟩⟩
                obtain ⟨-, rfl⟩ := hbest.resolve_right fun hboth => hsilent hboth.1
                exact ⟨hplain, Iff.rfl⟩
            · rw [noteAccess_of_ne hnone] at h
              have hcases := ih h
              simpa [hnone] using hcases
        · rw [if_neg hmatches] at h
          have hsome : SomeMatch (PermMatches path) Writes (perm :: rest) ↔
              SomeMatch (PermMatches path) Writes rest := by
            rw [someMatch_cons]
            exact ⟨fun hcases => hcases.resolve_left fun hboth => hmatches hboth.1, .inr⟩
          have hsays : ¬ Says path perm := fun hboth => hmatches hboth.1
          rw [hsome, firstMatch_cons_of_not hsays]
          exact ih h

-- What the check finds first it finds in front of anything malformed.
theorem firstMatch_decides_iff (hreadable : Readable path items) (mode : Mode) :
    FirstMatch (Decides path) (Grants mode) items ↔
      FirstMatch (PermCovers path) (PermAllows mode) items := by
  constructor
  · rintro ⟨before, perm, after, hsplit, hbefore, hdecides, hgood, hallows⟩
    exact ⟨before, perm, after, hsplit, fun p hp hcovers => hbefore p hp (.inr hcovers),
      hdecides.resolve_left hgood, hallows⟩
  · rintro ⟨before, perm, after, hsplit, hbefore, hcovers, hallows⟩
    refine ⟨before, perm, after, hsplit, ?_, .inr hcovers, hcovers.not_malformed, hallows⟩
    rintro p hp (hbad | hcovers)
    · obtain ⟨start, rest, rfl⟩ := List.append_of_mem hp
      obtain ⟨q, hq, hmatches, -⟩ := hreadable start p (rest ++ perm :: after) (by simp [hsplit]) hbad
      exact hbefore q (List.mem_append_left _ hq) hmatches.covers
    · exact hbefore p hp hcovers

theorem firstMatch_read_iff : FirstMatch (PermCovers path) (PermAllows .read) items ↔
    ∃ perm ∈ items, PermCovers path perm := by
  have hclear : ¬ Shadowed (PermCovers path) (PermAllows .read) items := by
    rintro ⟨before, perm, after, -, -, -, hdenies, -⟩
    exact hdenies (.inl rfl)
  rw [firstMatch_iff_someMatch.mpr hclear]
  exact ⟨fun ⟨perm, hperm, hcovers, _⟩ => ⟨perm, hperm, hcovers⟩,
    fun ⟨perm, hperm, hcovers⟩ => ⟨perm, hperm, hcovers, .inl rfl⟩⟩

theorem permAllows_write : PermAllows .write = Writes := by
  funext perm
  simp [PermAllows, Writes]

-- One entry covers or none does, and if one does the first has `rw` or it has not.
theorem covers_cases (path : Text) (items : List Value) :
    (∀ perm ∈ items, ¬ PermCovers path perm) ∨ FirstMatch (PermCovers path) Writes items ∨
      FirstMatch (PermCovers path) (fun perm => ¬ Writes perm) items := by
  by_cases hsome : ∃ perm ∈ items, PermCovers path perm
  · obtain ⟨before, perm, after, hsplit, hbefore, hcovers, -⟩ := firstMatch_read_iff.mpr hsome
    by_cases hrw : Writes perm
    · exact .inr (.inl ⟨before, perm, after, hsplit, hbefore, hcovers, hrw⟩)
    · exact .inr (.inr ⟨before, perm, after, hsplit, hbefore, hcovers, hrw⟩)
  · exact .inl fun perm hperm hcovers => hsome ⟨perm, hperm, hcovers⟩

-- The access that is decided first is the one that is found: there is none, or it is `rw`
-- on both sides, or it is less on both sides and the listing does not drop it.
def RowAgrees (path : Text) (items : List Value) : Prop :=
  Readable path items ∧
    ((∀ perm ∈ items, ¬ PermCovers path perm) ∨
      (FirstMatch (PermCovers path) Writes items ∧ SomeMatch (PermMatches path) Writes items) ∨
      (FirstMatch (PermCovers path) (fun perm => ¬ Writes perm) items ∧
        ¬ SomeMatch (PermMatches path) Writes items ∧ FirstMatch (Says path) SaysSomething items))

theorem rowAgrees_iff {access : Value} (h : maxAccess path .none items = .ok access) :
    ((access.truthy = true ↔ ∃ perm ∈ items, PermCovers path perm) ∧
      (access.truthy = true → (access = .str "rw".toList ↔
        FirstMatch (PermCovers path) Writes items))) ↔ RowAgrees path items := by
  have hreadable : Readable path items := maxAccess_ok_iff.mp ⟨access, h⟩
  have hspec := maxAccess_spec h
  simp only [ne_eq, not_true_eq_false, false_and, true_and, false_or] at hspec
  unfold RowAgrees
  rw [and_iff_right hreadable]
  have hfound : SomeMatch (PermMatches path) Writes items → ∃ perm ∈ items, PermCovers path perm :=
    fun ⟨perm, hperm, hmatches, _⟩ => ⟨perm, hperm, hmatches.covers⟩
  have hsaid : FirstMatch (Says path) SaysSomething items → ∃ perm ∈ items, PermCovers path perm :=
    fun hfirst => by
      obtain ⟨perm, hperm, hsays, -⟩ := hfirst.someMatch
      exact ⟨perm, hperm, hsays.1.covers⟩
  have hcovered {grants : Value → Prop} (hfirst : FirstMatch (PermCovers path) grants items) :
      ∃ perm ∈ items, PermCovers path perm := by
    obtain ⟨perm, hperm, hcovers, -⟩ := hfirst.someMatch
    exact ⟨perm, hperm, hcovers⟩
  have hexclusive (hfirst : FirstMatch (PermCovers path) (fun perm => ¬ Writes perm) items) :
      ¬ FirstMatch (PermCovers path) Writes items := by
    obtain ⟨before, perm, after, rfl, hbefore, hcovers, hreads⟩ := hfirst
    rw [firstMatch_append, firstMatch_cons_of_applies hcovers]
    rintro (hother | ⟨-, hwrites⟩)
    · obtain ⟨p, hp, hcovers', -⟩ := hother.someMatch
      exact hbefore p hp hcovers'
    · exact hreads hwrites
  have hnone : (∀ perm ∈ items, ¬ PermCovers path perm) ↔ ¬ ∃ perm ∈ items, PermCovers path perm := by
    simp only [not_exists, not_and]
  rw [hnone]
  cases hspec with
  | inl hrw =>
      obtain ⟨hsome, rfl⟩ := hrw
      have htrue : (Value.str "rw".toList).truthy = true := rfl
      simp only [htrue, true_iff, forall_const, hfound hsome, not_true_eq_false, false_or, hsome,
        and_true, false_and, and_false, or_false, true_and]
  | inr hother =>
      obtain ⟨hnorw, hplain, htruthy⟩ := hother
      have hne : access ≠ .str "rw".toList := fun heq => by
        rw [heq] at hplain
        cases hplain
      simp only [hne, false_iff, hnorw, and_false, not_false_eq_true, true_and, false_or]
      rw [htruthy]
      constructor
      · rintro ⟨hlisted, hwrites⟩
        by_cases hsome : ∃ perm ∈ items, PermCovers path perm
        · have hfirst := hlisted.mpr hsome
          obtain hnone' | hrw | hreads := covers_cases path items
          · exact absurd hsome (hnone.mp hnone')
          · exact absurd hrw (hwrites hfirst)
          · exact .inr ⟨hreads, hfirst⟩
        · exact .inl hsome
      · rintro (hnothing | ⟨hreads, hfirst⟩)
        · exact ⟨⟨hsaid, fun h => absurd h hnothing⟩, fun h => absurd (hsaid h) hnothing⟩
        · exact ⟨⟨hsaid, fun _ => hfirst⟩, fun _ => hexclusive hreads⟩

end Rows

section Agreement

variable (jsonDepth : Nat) (rescueUsers : List Text)

-- What enforcement lets an admin user do with a path.
def AdminMay (s : Store) (username path : Text) (mode : Mode) : Prop :=
  ∃ acl, adminAclOfRecord jsonDepth rescueUsers username (s.get (adminAclKey username)) = .ok acl ∧
    checkAcl acl (Resource.kv path).requested mode = .ok ()

-- A client with a device-shaped ACL.
structure DeviceClient (s : Store) (clientId app : Text) : Prop where
  present : truthy (s.get (clientSecretKey clientId)) = true
  shaped : ∃ acl, recordOr jsonDepth (permissionsAcl []) (s.get (clientAclKey clientId)) = .ok acl ∧
    deviceAppForClient acl clientId = .ok (some app)

-- The listing says of every user what enforcement does.
def ListsEnforced (s : Store) (clientId app : Text) : Prop :=
  ∃ admins, listAdminsForDevice jsonDepth clientId s = .ok ⟨clientId, some app, admins⟩ ∧
    ∀ username,
      ((∃ access, (username, access) ∈ admins) ↔
        AdminMay jsonDepth rescueUsers s username (app ++ '/' :: clientId) .read) ∧
      ∀ access, (username, access) ∈ admins → (access = .str "rw".toList ↔
        AdminMay jsonDepth rescueUsers s username (app ++ '/' :: clientId) .write)

-- Every rescue user has a row, and every row is one that the listing and the check read alike.
structure RowsAgree (s : Store) (path : Text) : Prop where
  rescue : ∀ username ∈ rescueUsers, truthy (s.get (adminAclKey username)) = true
  rows : ∀ username, truthy (s.get (adminAclKey username)) = true →
    ∃ acl items, recordOr jsonDepth (permissionsAcl []) (s.get (adminAclKey username)) = .ok acl ∧
      aclItems acl = .ok items ∧ RowAgrees path items

variable {jsonDepth rescueUsers} {s : Store} {clientId app username path : Text}

theorem adminAclOfRecord_stored (h : truthy (s.get (adminAclKey username)) = true) :
    adminAclOfRecord jsonDepth rescueUsers username (s.get (adminAclKey username)) =
      recordOr jsonDepth (permissionsAcl []) (s.get (adminAclKey username)) := by
  unfold adminAclOfRecord recordOr
  rw [if_pos h, if_pos h]
  cases loadRecord jsonDepth ((s.get (adminAclKey username)).getD []) with
  | ok acl => rfl
  | error e => cases e <;> rfl

-- A user whose row is missing may do everything as a rescue user and nothing otherwise.
theorem adminMay_missing (h : ¬ truthy (s.get (adminAclKey username)) = true) (mode : Mode) :
    AdminMay jsonDepth rescueUsers s username path mode ↔ username ∈ rescueUsers := by
  unfold AdminMay adminAclOfRecord
  rw [if_neg h]
  by_cases hrescue : username ∈ rescueUsers
  · rw [if_pos hrescue]
    exact ⟨fun _ => hrescue, fun _ => ⟨rescueAcl, rfl, allowed_wildcard _ mode⟩⟩
  · rw [if_neg hrescue]
    constructor
    · rintro ⟨acl, hacl, hcheck⟩
      obtain rfl := Except.ok.inj hacl
      exact absurd (allowed_iff.mp hcheck) not_firstMatch_nil
    · exact fun h => absurd h hrescue

theorem adminMay_stored {acl : Value} {items : List Value}
    (hstored : truthy (s.get (adminAclKey username)) = true)
    (hacl : recordOr jsonDepth (permissionsAcl []) (s.get (adminAclKey username)) = .ok acl)
    (hitems : aclItems acl = .ok items) (hreadable : Readable path items) (mode : Mode) :
    AdminMay jsonDepth rescueUsers s username path mode ↔
      FirstMatch (PermCovers path) (PermAllows mode) items := by
  unfold AdminMay
  rw [adminAclOfRecord_stored hstored, hacl, ← firstMatch_decides_iff hreadable,
    ← checkPermissions_ok_iff (Resource.kv path).requested]
  have hcheck : checkAcl acl (Resource.kv path).requested mode =
      checkPermissions (Resource.kv path).requested (aclCandidatePaths path) mode items := by
    rw [checkAcl_eq, hitems]
    rfl
  constructor
  · rintro ⟨other, hother, hok⟩
    obtain rfl := Except.ok.inj hother
    rw [← hcheck, hok]
  · exact fun h => ⟨acl, rfl, hcheck.trans h⟩

theorem adminAccess_missing (h : ¬ truthy (s.get (adminAclKey username)) = true) :
    adminAccess jsonDepth path (s.get (adminAclKey username)) = .ok none := by
  unfold adminAccess recordOr
  rw [if_neg h]
  rfl

theorem adminAccess_stored {access? : Option Value} :
    adminAccess jsonDepth path (s.get (adminAclKey username)) = .ok access? ↔
      ∃ acl items access,
        recordOr jsonDepth (permissionsAcl []) (s.get (adminAclKey username)) = .ok acl ∧
          aclItems acl = .ok items ∧ maxAccess path .none items = .ok access ∧
            access? = if access.truthy then some access else none := by
  unfold adminAccess
  simp only [bind_ok_iff, Except.ok.injEq]
  constructor
  · rintro ⟨acl, hacl, items, hitems, access, haccess, rfl⟩
    exact ⟨acl, items, access, hacl, hitems, haccess, rfl⟩
  · rintro ⟨acl, items, access, hacl, hitems, haccess, rfl⟩
    exact ⟨acl, hacl, items, hitems, access, haccess, rfl⟩

theorem mem_adminRows : username ∈ scanStrings s "admin_acls:".toList [] ↔
    ∃ raw, s.get (adminAclKey username) = some raw := by
  rw [mem_scanStrings, List.append_nil]
  rfl

-- The listing goes through when every row does.
theorem exists_adminsFor_iff : (∃ admins, adminsFor jsonDepth s path = .ok admins) ↔
    ∀ username, ∃ access?, adminAccess jsonDepth path (s.get (adminAclKey username)) =
      .ok access? := by
  have hrows (username : Text) : (∃ row, (do
      let access? ← adminAccess jsonDepth path (s.get (adminAclKey username))
      .ok (access?.map fun access => (username, access)) :
        Except Exn (Option (Text × Value))) = .ok row) ↔
      ∃ access?, adminAccess jsonDepth path (s.get (adminAclKey username)) = .ok access? := by
    simp only [bind_ok_iff]
    exact ⟨fun ⟨_, access?, haccess, _⟩ => ⟨access?, haccess⟩,
      fun ⟨access?, haccess⟩ => ⟨_, access?, haccess, rfl⟩⟩
  unfold adminsFor
  simp only [bind_ok_iff]
  rw [exists_comm]
  simp only [exists_and_left]
  constructor
  · rintro ⟨rows, hmap, -⟩ username
    by_cases hstored : truthy (s.get (adminAclKey username)) = true
    · have hmem : username ∈ scanStrings s "admin_acls:".toList [] := by
        rw [mem_adminRows, ← Option.isSome_iff_exists]
        cases hraw : s.get (adminAclKey username) with
        | none => rw [hraw] at hstored; cases hstored
        | some raw => rfl
      exact (hrows username).mp (exists_mapM_iff.mp ⟨rows, hmap⟩ username hmem)
    · exact ⟨none, adminAccess_missing hstored⟩
  · intro hall
    obtain ⟨rows, hmap⟩ := exists_mapM_iff.mpr fun username
      (_ : username ∈ scanStrings s "admin_acls:".toList []) => (hrows username).mpr (hall username)
    exact ⟨rows, hmap, _, rfl⟩

-- And it holds what the rows give.
theorem mem_adminsFor {admins : List (Text × Value)} (h : adminsFor jsonDepth s path = .ok admins)
    {access : Value} : (username, access) ∈ admins ↔
      adminAccess jsonDepth path (s.get (adminAclKey username)) = .ok (some access) := by
  unfold adminsFor at h
  obtain ⟨rows, hmap, hsorted⟩ := bind_ok_iff.mp h
  obtain rfl := Except.ok.inj hsorted
  rw [(List.perm_insertionSort _ _).mem_iff, List.reduceOption_mem_iff, mem_mapM_iff hmap]
  simp only [bind_ok_iff, Except.ok.injEq, Option.map_eq_some_iff, Prod.mk.injEq]
  constructor
  · rintro ⟨other, -, access?, haccess, value, rfl, rfl, rfl⟩
    exact haccess
  · intro haccess
    refine ⟨username, mem_adminRows.mpr ?_, some access, haccess, access, rfl, rfl, rfl⟩
    cases hraw : s.get (adminAclKey username) with
    | none =>
        rw [hraw] at haccess
        cases haccess
    | some raw => exact ⟨raw, rfl⟩

theorem listAdminsForDevice_ok_iff (h : DeviceClient jsonDepth s clientId app)
    {admins : List (Text × Value)} :
    listAdminsForDevice jsonDepth clientId s = .ok ⟨clientId, some app, admins⟩ ↔
      adminsFor jsonDepth s (app ++ '/' :: clientId) = .ok admins := by
  obtain ⟨acl, hacl, happ⟩ := h.shaped
  unfold listAdminsForDevice
  rw [if_pos h.present, hacl]
  change (deviceAppForClient acl clientId >>= _) = _ ↔ _
  rw [happ]
  change (adminsFor jsonDepth s (app ++ '/' :: clientId) >>= _) = _ ↔ _
  simp only [bind_ok_iff, Except.ok.injEq, DeviceAdmins.mk.injEq, true_and, exists_eq_right]

-- For a device client the listing agrees with enforcement exactly when every rescue user
-- has a row and no row is read in two ways.
theorem listsEnforced_iff (h : DeviceClient jsonDepth s clientId app) :
    ListsEnforced jsonDepth rescueUsers s clientId app ↔
      RowsAgree jsonDepth rescueUsers s (app ++ '/' :: clientId) := by
  unfold ListsEnforced
  simp only [listAdminsForDevice_ok_iff h]
  constructor
  · rintro ⟨admins, hadmins, hagrees⟩
    have hrows := exists_adminsFor_iff.mp ⟨admins, hadmins⟩
    refine ⟨fun username hrescue => ?_, fun username hstored => ?_⟩
    · by_contra hmissing
      obtain ⟨access, hlisted⟩ := (hagrees username).1.mpr ((adminMay_missing hmissing _).mpr hrescue)
      rw [mem_adminsFor hadmins, adminAccess_missing hmissing] at hlisted
      cases hlisted
    · obtain ⟨access?, haccess?⟩ := hrows username
      obtain ⟨acl, items, access, hacl, hitems, haccess, rfl⟩ := adminAccess_stored.mp haccess?
      refine ⟨acl, items, hacl, hitems, (rowAgrees_iff haccess).mp ?_⟩
      have hreadable := maxAccess_ok_iff.mp ⟨access, haccess⟩
      obtain ⟨hread, hwrite⟩ := hagrees username
      simp only [mem_adminsFor hadmins, haccess?, adminMay_stored hstored hacl hitems hreadable,
        firstMatch_read_iff, permAllows_write] at hread hwrite
      by_cases htrue : access.truthy = true
      · simp only [htrue, if_true, Except.ok.injEq, Option.some.injEq, exists_eq', true_iff,
          forall_eq'] at hread hwrite
        exact ⟨⟨fun _ => hread, fun _ => htrue⟩, fun _ => hwrite⟩
      · simp only [htrue, if_false, Except.ok.injEq, reduceCtorEq, exists_false, false_iff] at hread
        exact ⟨⟨fun h => absurd h htrue, fun h => absurd h hread⟩, fun h => absurd h htrue⟩
  · intro hagree
    have hrows : ∀ username, ∃ access?,
        adminAccess jsonDepth (app ++ '/' :: clientId) (s.get (adminAclKey username)) =
          .ok access? := by
      intro username
      by_cases hstored : truthy (s.get (adminAclKey username)) = true
      · obtain ⟨acl, items, hacl, hitems, hrow⟩ := hagree.rows username hstored
        obtain ⟨access, haccess⟩ := (@maxAccess_ok_iff _ .none _).mpr hrow.1
        exact ⟨_, adminAccess_stored.mpr ⟨acl, items, access, hacl, hitems, haccess, rfl⟩⟩
      · exact ⟨none, adminAccess_missing hstored⟩
    obtain ⟨admins, hadmins⟩ := exists_adminsFor_iff.mpr hrows
    refine ⟨admins, hadmins, fun username => ?_⟩
    simp only [mem_adminsFor hadmins]
    by_cases hstored : truthy (s.get (adminAclKey username)) = true
    · obtain ⟨acl, items, hacl, hitems, hrow⟩ := hagree.rows username hstored
      obtain ⟨access, haccess⟩ := (@maxAccess_ok_iff _ .none _).mpr hrow.1
      have haccess? := adminAccess_stored.mpr ⟨acl, items, access, hacl, hitems, haccess, rfl⟩
      obtain ⟨hread, hwrite⟩ := (rowAgrees_iff haccess).mpr hrow
      rw [haccess?]
      simp only [adminMay_stored hstored hacl hitems hrow.1, firstMatch_read_iff, permAllows_write]
      by_cases htrue : access.truthy = true
      · rw [if_pos htrue]
        refine ⟨⟨fun _ => hread.mp htrue, fun _ => ⟨access, rfl⟩⟩, fun other hother => ?_⟩
        obtain rfl := Option.some.inj (Except.ok.inj hother)
        exact hwrite htrue
      · rw [if_neg htrue]
        exact ⟨⟨fun ⟨_, hlisted⟩ => (nomatch hlisted), fun h => absurd (hread.mpr h) htrue⟩,
          fun _ hother => (nomatch hother)⟩
    · rw [adminAccess_missing hstored, adminMay_missing hstored]
      exact ⟨⟨fun ⟨_, hlisted⟩ => (nomatch hlisted), fun h => absurd (hagree.rescue username h) hstored⟩,
        fun _ hother => (nomatch hother)⟩

end Agreement

section Ann

def recordDepth : Nat := 8

def stored (value : Value) : Bytes :=
  match Json.dumpsValue (recordDepth + 1) value with
  | .ok text => utf8 text
  | .error _ => []

theorem recordOr_stored {value : Value} (h : Json.Textual recordDepth value) (default : Value) :
    truthy (some (stored value)) = true ∧
      recordOr recordDepth default (some (stored value)) = .ok value := by
  obtain ⟨text, hdumps, hloads⟩ := h.loads_dumps
  have hrecord : stored value = utf8 text := by
    unfold stored
    rw [hdumps]
  have hload : loadRecord recordDepth (utf8 text) = .ok value := by
    unfold loadRecord
    rw [utf8Decode_utf8]
    exact hloads
  have htrue : truthy (some (utf8 text)) = true := by
    cases hbytes : utf8 text with
    | cons byte rest => rfl
    | nil =>
        rw [hbytes] at hload
        cases hload
  rw [hrecord]
  refine ⟨htrue, ?_⟩
  unfold recordOr
  rw [if_pos htrue, Option.getD_some, hload]

def devAcl : Value := permissionsAcl [permission "a/dev".toList "rw".toList]

-- A device of the app `a` and one admin user with these permissions.
def annStore (perms : List Value) : Store :=
  ((Store.empty.set (clientSecretKey "dev".toList) (utf8 "00".toList)).set
    (clientAclKey "dev".toList) (stored devAcl)).set (adminAclKey "ann".toList)
      (stored (permissionsAcl perms))

theorem textual_devAcl : Json.Textual recordDepth devAcl := by
  refine textual_permissionsAcl fun perm hperm => ?_
  obtain rfl := List.mem_singleton.mp hperm
  exact textual_permission 5 _ _

theorem annStore_client (perms : List Value) :
    DeviceClient recordDepth (annStore perms) "dev".toList "a".toList where
  present := by
    unfold annStore
    rw [Store.get_set_of_ne _ (by decide), Store.get_set_of_ne _ (by decide), Store.get_set_self]
    decide
  shaped := by
    have hget : (annStore perms).get (clientAclKey "dev".toList) = some (stored devAcl) := by
      unfold annStore
      rw [Store.get_set_of_ne _ (by decide), Store.get_set_self]
    refine ⟨devAcl, ?_, rfl⟩
    rw [hget]
    exact (recordOr_stored textual_devAcl _).2

theorem annStore_get (perms : List Value) (username : Text) :
    (annStore perms).get (adminAclKey username) =
      if username = "ann".toList then some (stored (permissionsAcl perms)) else none := by
  have hsecret : adminAclKey username ≠ clientSecretKey "dev".toList :=
    Slot.key_injective.ne (show Slot.adminAcl username ≠ .secret _ from Slot.noConfusion)
  have hacl : adminAclKey username ≠ clientAclKey "dev".toList :=
    Slot.key_injective.ne (show Slot.adminAcl username ≠ .acl _ from Slot.noConfusion)
  by_cases hann : username = "ann".toList
  · subst hann
    rw [if_pos rfl]
    exact Store.get_set_self _ _ _
  · have hkey : adminAclKey username ≠ adminAclKey "ann".toList := by
      intro heq
      exact hann (List.append_cancel_left heq)
    rw [if_neg hann, annStore, Store.get_set_of_ne _ hkey, Store.get_set_of_ne _ hacl,
      Store.get_set_of_ne _ hsecret, Store.get_empty]

-- The row of the user, where its entries are permissions.
theorem annStore_row {entries : List (Text × Text)} :
    let perms := entries.map aclPermission
    truthy ((annStore perms).get (adminAclKey "ann".toList)) = true ∧
      recordOr recordDepth (permissionsAcl []) ((annStore perms).get (adminAclKey "ann".toList)) =
        .ok (permissionsAcl perms) ∧ aclItems (permissionsAcl perms) = .ok perms := by
  intro perms
  rw [annStore_get, if_pos rfl]
  have htextual : Json.Textual recordDepth (permissionsAcl perms) := by
    refine textual_permissionsAcl fun perm hperm => ?_
    obtain ⟨entry, -, rfl⟩ := List.mem_map.mp hperm
    exact textual_permission 5 _ _
  obtain ⟨htrue, hload⟩ := recordOr_stored htextual (permissionsAcl [])
  exact ⟨htrue, hload, rfl⟩

theorem permMatches_aclPermission {entry : Text × Text} :
    PermMatches path (aclPermission entry) ↔ CoversPath entry.1 path := by
  have hpre : permPrefix (aclPermission entry) = .ok (some entry.1) := rfl
  simp [PermMatches, hpre]

theorem not_malformed_aclPermission (entry : Text × Text) : ¬ Malformed (aclPermission entry) := by
  rintro ⟨exn, hexn⟩
  cases hexn

theorem readable_aclPermissions (entries : List (Text × Text)) :
    Readable path (entries.map aclPermission) := by
  intro before perm after hsplit hbad
  have hmem : perm ∈ entries.map aclPermission := by
    rw [hsplit]
    simp
  obtain ⟨entry, -, rfl⟩ := List.mem_map.mp hmem
  exact absurd hbad (not_malformed_aclPermission entry)

theorem listsEnforced_single :
    ListsEnforced recordDepth [] (annStore ([("a".toList, "rw".toList)].map aclPermission))
      "dev".toList "a".toList := by
  refine (listsEnforced_iff (annStore_client _)).mpr ⟨fun _ h => (nomatch h), ?_⟩
  intro username hstored
  have hann : username = "ann".toList := by
    by_contra hother
    rw [annStore_get, if_neg hother] at hstored
    cases hstored
  subst hann
  obtain ⟨-, hload, hitems⟩ := @annStore_row [("a".toList, "rw".toList)]
  have hmatches : PermMatches "a/dev".toList (aclPermission ("a".toList, "rw".toList)) :=
    permMatches_aclPermission.mpr (by decide)
  refine ⟨_, _, hload, hitems, readable_aclPermissions _, .inr (.inl ⟨?_, ?_⟩)⟩
  · exact (firstMatch_cons_of_applies hmatches.covers).mpr rfl
  · exact someMatch_cons.mpr (.inl ⟨hmatches, rfl⟩)

-- Reading first: the listing says `rw`, and the check lets nothing be written.
theorem readFirst_listed :
    let s := annStore ([("a".toList, "r".toList), ("a".toList, "rw".toList)].map aclPermission)
    DeviceClient recordDepth s "dev".toList "a".toList ∧
      ¬ ListsEnforced recordDepth [] s "dev".toList "a".toList := by
  intro s
  have hclient : DeviceClient recordDepth s "dev".toList "a".toList := annStore_client _
  refine ⟨hclient, ?_⟩
  rintro ⟨admins, hlist, hagrees⟩
  obtain ⟨hstored, hload, hitems⟩ := @annStore_row [("a".toList, "r".toList), ("a".toList, "rw".toList)]
  have hreadable := @readable_aclPermissions "a/dev".toList
    [("a".toList, "r".toList), ("a".toList, "rw".toList)]
  have hmatches (access : Text) : PermMatches "a/dev".toList (aclPermission ("a".toList, access)) :=
    permMatches_aclPermission.mpr (by show CoversPath "a".toList _; decide)
  have hlisted : ("ann".toList, Value.str "rw".toList) ∈ admins := by
    rw [mem_adminsFor ((listAdminsForDevice_ok_iff hclient).mp hlist)]
    exact adminAccess_stored.mpr ⟨_, _, .str "rw".toList, hload, hitems, rfl, rfl⟩
  have hwrite := (adminMay_stored hstored hload hitems hreadable .write).mp
    (((hagrees "ann".toList).2 _ hlisted).mp rfl)
  rw [List.map_cons, firstMatch_cons_of_applies (hmatches _).covers] at hwrite
  cases hwrite with
  | inl hread => cases hread
  | inr hrw => cases hrw

end Ann

end Stra2us.Acl
