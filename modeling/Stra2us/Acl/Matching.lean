import Stra2us.Foundation.FirstMatch
import Stra2us.Server.Dependencies

namespace Stra2us.Acl

open Foundation Server

-- What a request is checked against: a key or a topic.
inductive Resource
  | kv (key : Text)
  | queue (topic : Text)
deriving DecidableEq, Repr

def Resource.path : Resource → Text
  | .kv key => key
  | .queue topic => topic

-- The name under which the routes ask for it.
def Resource.requested : Resource → Text
  | .kv key => "kv/".toList ++ key
  | .queue topic => "q/".toList ++ topic

@[simp] theorem Resource.stripResourceType_requested (resource : Resource) :
    stripResourceType resource.requested = resource.path := by
  cases resource with
  | kv key =>
      simp [stripResourceType, requested, path]
  | queue topic => simp [stripResourceType, requested, path]

section Covers

-- The matching rules: the wildcard, the path itself, or a part of it that ends at a slash.
def CoversPath (pre path : Text) : Prop :=
  pre = "*".toList ∨ path = pre ∨ pre ++ "/".toList <+: path

-- What covers an app covers its catalog stash.
def Covers (pre path : Text) : Prop :=
  CoversPath pre path ∨
    ∃ app, app ≠ [] ∧ path = catalogStashPrefix ++ app ∧ CoversPath pre app

instance (pre path : Text) : Decidable (CoversPath pre path) :=
  inferInstanceAs (Decidable (_ ∨ _ ∨ _))

theorem covers_iff (pre path : Text) :
    Covers pre path ↔ ∃ candidate ∈ aclCandidatePaths path, CoversPath pre candidate := by
  unfold Covers aclCandidatePaths
  by_cases hstash : catalogStashPrefix <+: path
  · obtain ⟨app, rfl⟩ := hstash
    have hdrop : (catalogStashPrefix ++ app).drop catalogStashPrefix.length = app := by simp
    rw [if_pos (List.prefix_append _ _)]
    dsimp only
    rw [hdrop]
    by_cases happ : app = []
    · subst happ
      simp
    · rw [if_pos happ]
      simp only [List.mem_cons, List.not_mem_nil, or_false, exists_eq_or_imp, exists_eq_left]
      refine or_congr_right ?_
      constructor
      · rintro ⟨other, -, hsame, hcovers⟩
        rwa [List.append_cancel_left hsame]
      · intro hcovers
        exact ⟨app, happ, rfl, hcovers⟩
  · rw [if_neg hstash]
    simp only [List.mem_cons, List.not_mem_nil, or_false, exists_eq_left]
    constructor
    · rintro (hcovers | ⟨app, -, rfl, -⟩)
      · exact hcovers
      · exact absurd (List.prefix_append _ _) hstash
    · exact .inl

instance (pre path : Text) : Decidable (Covers pre path) :=
  decidable_of_iff _ (covers_iff pre path).symm

theorem anyMatches_str (pre : Text) (paths : List Text) :
    anyMatches (.str pre) paths = .ok (decide (∃ path ∈ paths, CoversPath pre path)) := by
  induction paths with
  | nil => rfl
  | cons path rest ih =>
      simp only [anyMatches, prefixMatches, bind, Except.bind, ih, decide_eq_true_eq]
      change (if CoversPath pre path then _ else _) = _
      by_cases h : CoversPath pre path
      · simp [h]
      · simp [h]

theorem anyMatches_candidates (pre path : Text) :
    anyMatches (.str pre) (aclCandidatePaths path) = .ok (decide (Covers pre path)) := by
  rw [anyMatches_str]
  simp only [covers_iff]

theorem aclCandidatePaths_ne_nil (path : Text) : aclCandidatePaths path ≠ [] := by
  unfold aclCandidatePaths
  dsimp only
  split_ifs <;> simp

end Covers

section Permissions

-- What the matcher makes of a prefix: its text, one that matches nothing, or a failure.
def prefixText : Value → Except Exn (Option Text)
  | .str pre => .ok (some pre)
  | .surrogates _ => .ok none
  | _ => .error (.python "TypeError".toList)

def permPrefix (perm : Value) : Except Exn (Option Text) := do
  prefixText ((← getField perm "prefix".toList).getD (.str []))

-- An entry that is no object, or whose prefix is no string, stops the check.
def Malformed (perm : Value) : Prop :=
  ∃ exn, permPrefix perm = .error exn

def PermCovers (path : Text) (perm : Value) : Prop :=
  ∃ pre, permPrefix perm = .ok (some pre) ∧ Covers pre path

def permWrites (perm : Value) : Bool :=
  match getField perm "access".toList with
  | .ok (some access) => isText access "rw".toList
  | _ => false

-- Any access will do to read, but only `rw` to write.
def PermAllows (mode : Mode) (perm : Value) : Prop :=
  mode = .read ∨ permWrites perm

def Decides (path : Text) (perm : Value) : Prop :=
  Malformed perm ∨ PermCovers path perm

def Grants (mode : Mode) (perm : Value) : Prop :=
  ¬ Malformed perm ∧ PermAllows mode perm

theorem PermCovers.not_malformed {path : Text} {perm : Value} (h : PermCovers path perm) :
    ¬ Malformed perm := by
  obtain ⟨pre, hpre, -⟩ := h
  rintro ⟨exn, hexn⟩
  rw [hpre] at hexn
  cases hexn

theorem anyMatches_surrogates (units : List Nat) (paths : List Text) :
    anyMatches (.surrogates units) paths = .ok false := by
  induction paths with
  | nil => rfl
  | cons path rest ih =>
      simp only [anyMatches, prefixMatches, bind, Except.bind, ih]
      rfl

theorem anyMatches_eq (pre : Value) (path : Text) :
    anyMatches pre (aclCandidatePaths path) =
      (prefixText pre).map fun text? => text?.any fun text => decide (Covers text path) := by
  obtain ⟨first, others, hpaths⟩ := List.exists_cons_of_ne_nil (aclCandidatePaths_ne_nil path)
  cases pre with
  | str text => exact anyMatches_candidates text path
  | surrogates units => exact anyMatches_surrogates units _
  | _ => rw [hpaths]; rfl

theorem isText_access (pairs : List (Value × Value)) :
    isText ((Value.lookup pairs "access".toList).getD (.str "r".toList)) "rw".toList =
      permWrites (.dict pairs) := by
  unfold permWrites getField
  dsimp only
  cases Value.lookup pairs "access".toList with
  | none => rfl
  | some access => rfl

theorem checkPermissions_dict (requested path : Text) (mode : Mode)
    (pairs : List (Value × Value)) (rest : List Value) :
    checkPermissions requested (aclCandidatePaths path) mode (.dict pairs :: rest) =
      (permPrefix (.dict pairs)).bind fun text? =>
        if text?.any fun text => decide (Covers text path) then
          if mode = .write ∧ ¬ permWrites (.dict pairs) then
            .error (.http 403 "Forbidden: Write access denied".toList)
          else .ok ()
        else checkPermissions requested (aclCandidatePaths path) mode rest := by
  have hbefore : permPrefix (.dict pairs) =
      prefixText ((Value.lookup pairs "prefix".toList).getD (.str [])) := rfl
  simp only [checkPermissions, getField, bind, Except.bind, anyMatches_eq, isText_access, hbefore]
  cases prefixText ((Value.lookup pairs "prefix".toList).getD (.str [])) with
  | error exn => rfl
  | ok text? => rfl

-- One entry: the check stops on it or goes on behind it.
theorem checkPermissions_cons (requested path : Text) (mode : Mode) (perm : Value)
    (rest : List Value) :
    checkPermissions requested (aclCandidatePaths path) mode (perm :: rest) = .ok () ↔
      (Decides path perm ∧ Grants mode perm) ∨ (¬ Decides path perm ∧
        checkPermissions requested (aclCandidatePaths path) mode rest = .ok ()) := by
  by_cases hdict : ∃ pairs, perm = .dict pairs
  · obtain ⟨pairs, rfl⟩ := hdict
    rw [checkPermissions_dict]
    cases hpre : permPrefix (.dict pairs) with
    | error exn =>
        have hbad : Malformed (.dict pairs) := ⟨exn, hpre⟩
        simp [Decides, Grants, hbad, Except.bind]
    | ok text? =>
        have hgood : ¬ Malformed (.dict pairs) := by
          rintro ⟨exn, hexn⟩
          rw [hpre] at hexn
          cases hexn
        have hdecides : Decides path (.dict pairs) ↔
            text?.any fun text => decide (Covers text path) := by
          cases text? <;> simp [Decides, hgood, PermCovers, hpre]
        simp only [hdecides, Grants, hgood, not_false_iff, true_and, PermAllows, Except.bind]
        cases text?.any fun text => decide (Covers text path) with
        | false => simp
        | true =>
            cases mode with
            | read => simp
            | write => cases permWrites (.dict pairs) <;> simp
  · have hbad : Malformed perm := by
      cases perm with
      | dict pairs => exact absurd ⟨pairs, rfl⟩ hdict
      | _ => exact ⟨_, rfl⟩
    have hfails : checkPermissions requested (aclCandidatePaths path) mode (perm :: rest) ≠
        .ok () := by
      cases perm with
      | dict pairs => exact absurd ⟨pairs, rfl⟩ hdict
      | _ => exact fun h => nomatch h
    simp [Decides, Grants, hbad, hfails]

theorem checkPermissions_ok_iff (requested path : Text) (mode : Mode) (perms : List Value) :
    checkPermissions requested (aclCandidatePaths path) mode perms = .ok () ↔
      FirstMatch (Decides path) (Grants mode) perms := by
  induction perms with
  | nil =>
      constructor
      · intro h
        cases h
      · intro h
        exact absurd h not_firstMatch_nil
  | cons perm rest ih =>
      rw [checkPermissions_cons, ih]
      by_cases hdecides : Decides path perm
      · rw [firstMatch_cons_of_applies hdecides]
        simp [hdecides]
      · rw [firstMatch_cons_of_not hdecides]
        simp [hdecides]

end Permissions

section Documented

def Allowed (perms : List Value) (resource : Resource) (mode : Mode) : Prop :=
  checkAcl (permissionsAcl perms) resource.requested mode = .ok ()

-- Some entry covers the resource with enough access.
def Documented (perms : List Value) (resource : Resource) (mode : Mode) : Prop :=
  ∃ perm ∈ perms, PermCovers resource.path perm ∧ PermAllows mode perm

variable {perms : List Value} {resource : Resource} {mode : Mode}

theorem allowed_iff : Allowed perms resource mode ↔
    FirstMatch (Decides resource.path) (Grants mode) perms := by
  have hcheck : checkAcl (permissionsAcl perms) resource.requested mode =
      checkPermissions resource.requested (aclCandidatePaths resource.path) mode perms := by
    rw [← Resource.stripResourceType_requested]
    rfl
  unfold Allowed
  rw [hcheck, checkPermissions_ok_iff]

theorem allowed_wildcard (resource : Resource) (mode : Mode) :
    checkAcl rescueAcl resource.requested mode = .ok () := by
  have hpre : permPrefix (permission "*".toList "rw".toList) = .ok (some "*".toList) := rfl
  have hcovers : PermCovers resource.path (permission "*".toList "rw".toList) :=
    ⟨"*".toList, hpre, .inl (.inl rfl)⟩
  refine allowed_iff.mpr ((firstMatch_cons_of_applies (.inr hcovers)).mpr ?_)
  exact ⟨hcovers.not_malformed, .inr rfl⟩

theorem decides_and_grants (path : Text) (perm : Value) :
    Decides path perm ∧ Grants mode perm ↔ PermCovers path perm ∧ PermAllows mode perm := by
  constructor
  · rintro ⟨hbad | hcovers, hgood, hallows⟩
    · exact absurd hbad hgood
    · exact ⟨hcovers, hallows⟩
  · rintro ⟨hcovers, hallows⟩
    exact ⟨.inr hcovers, hcovers.not_malformed, hallows⟩

theorem documented_iff : Documented perms resource mode ↔
    SomeMatch (Decides resource.path) (Grants mode) perms := by
  simp only [Documented, SomeMatch, decides_and_grants]

theorem Allowed.documented (h : Allowed perms resource mode) : Documented perms resource mode :=
  documented_iff.mpr (allowed_iff.mp h).someMatch

-- Put together: the answer is the documented one when no entry that comes first denies
-- what a later one grants, it does not depend on the order when the entries that cover
-- the resource agree, and an entry put in takes an access away only as the first one.
theorem allowed_documented_iff (perms : List Value) (resource : Resource) (mode : Mode) :
    ((Allowed perms resource mode ↔ Documented perms resource mode) ↔
      ¬ Shadowed (Decides resource.path) (Grants mode) perms) ∧
    ((∀ other : List Value, other.Perm perms →
      (Allowed other resource mode ↔ Allowed perms resource mode)) ↔
        ¬ Mixed (Decides resource.path) (Grants mode) perms) ∧
    ∀ before after perm, perms = before ++ after →
      ((Allowed perms resource mode → Allowed (before ++ perm :: after) resource mode) ↔
        ¬ (Decides resource.path perm ∧ ¬ Grants mode perm ∧
          (∀ p ∈ before, ¬ Decides resource.path p) ∧
            FirstMatch (Decides resource.path) (Grants mode) after)) := by
  simp only [allowed_iff, documented_iff]
  refine ⟨firstMatch_iff_someMatch, firstMatch_perm_iff, ?_⟩
  rintro before after perm rfl
  exact firstMatch_insert_iff

-- Access to write is denied by the entry for reading in front of it.
theorem denies_read_first :
    let perms := [permission ['a'] ['r'], permission ['a'] ['r', 'w']]
    Documented perms (.kv "a/x".toList) .write ∧ ¬ Allowed perms (.kv "a/x".toList) .write ∧
      Allowed perms.reverse (.kv "a/x".toList) .write ∧
      Allowed (perms.drop 1) (.kv "a/x".toList) .write := by
  refine ⟨⟨permission ['a'] ['r', 'w'], by simp, ⟨['a'], rfl, by decide⟩, .inr rfl⟩, ?_, ?_, ?_⟩
  · intro h
    cases h
  · rfl
  · rfl

end Documented

end Stra2us.Acl
