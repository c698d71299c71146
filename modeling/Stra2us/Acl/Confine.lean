import Stra2us.Acl.Provision

namespace Stra2us.Acl

open Foundation Server

section Prefixes

-- The entries the check goes through.
def aclItems (acl : Value) : Except Exn (List Value) := do
  iterate ((← getField acl "permissions".toList).getD (.list []))

-- The prefixes it compares with, up to an entry that it fails on.
def prefixes : List Value → List Text
  | [] => []
  | perm :: rest =>
      match permPrefix perm with
      | .ok (some pre) => pre :: prefixes rest
      | .ok none => prefixes rest
      | .error _ => []

def aclPrefixes (acl : Value) : List Text :=
  match aclItems acl with
  | .ok items => prefixes items
  | .error _ => []

def AuthorizesOnly (app : Text) (acl : Value) : Prop :=
  ∀ resource, Reaches acl resource → OfApp app resource.path

-- Every prefix is the app's name or begins with it.
def Confined (app : Text) (acl : Value) : Prop :=
  ∀ pre ∈ aclPrefixes acl, pre ≠ "*".toList ∧ Within app pre

instance (root path : Text) : Decidable (Within root path) :=
  inferInstanceAs (Decidable (_ ∨ _))

instance (app : Text) (acl : Value) : Decidable (Confined app acl) :=
  inferInstanceAs (Decidable (∀ pre ∈ aclPrefixes acl, _))

variable {path : Text} {requested : Text} {acl : Value}

theorem checkAcl_eq (acl : Value) (resource : Resource) (mode : Mode) :
    checkAcl acl resource.requested mode = (aclItems acl).bind
      (checkPermissions resource.requested (aclCandidatePaths resource.path) mode) := by
  unfold checkAcl aclItems
  simp only [Resource.stripResourceType_requested]
  cases getField acl "permissions".toList with
  | error exn => rfl
  | ok permissions => rfl

-- To read it takes one prefix that covers.
theorem checkPermissions_read_iff (requested path : Text) (items : List Value) :
    checkPermissions requested (aclCandidatePaths path) .read items = .ok () ↔
      ∃ pre ∈ prefixes items, Covers pre path := by
  induction items with
  | nil => simp [checkPermissions, prefixes]
  | cons perm rest ih =>
      rw [checkPermissions_cons, decides_and_grants, ih]
      have hallows : PermAllows .read perm := .inl rfl
      rw [prefixes]
      cases hpre : permPrefix perm with
      | error exn =>
          have hdecides : Decides path perm := .inl ⟨exn, hpre⟩
          simp [PermCovers, hpre, hdecides]
      | ok text? =>
          cases text? with
          | none => simp [Decides, Malformed, PermCovers, hpre]
          | some pre =>
              simp only [Decides, Malformed, PermCovers, hpre, hallows, and_true, Except.ok.injEq,
                Option.some.injEq, exists_eq_left', reduceCtorEq, List.mem_cons, exists_eq_or_imp]
              by_cases hcovers : Covers pre path
              · simp [hcovers]
              · simp [hcovers]

theorem checkPermissions_read_of_write {items : List Value}
    (h : checkPermissions requested (aclCandidatePaths path) .write items = .ok ()) :
    checkPermissions requested (aclCandidatePaths path) .read items = .ok () := by
  induction items with
  | nil => cases h
  | cons perm rest ih =>
      rw [checkPermissions_cons] at h ⊢
      rcases h with ⟨hdecides, hgood, -⟩ | ⟨hnot, hrest⟩
      · exact .inl ⟨hdecides, hgood, .inl rfl⟩
      · exact .inr ⟨hnot, ih hrest⟩

theorem reaches_iff_covers (acl : Value) (resource : Resource) :
    Reaches acl resource ↔ ∃ pre ∈ aclPrefixes acl, Covers pre resource.path := by
  unfold Reaches aclPrefixes
  simp only [checkAcl_eq]
  cases aclItems acl with
  | error exn => simp [Except.bind]
  | ok items =>
      dsimp only [Except.bind]
      rw [← checkPermissions_read_iff resource.requested resource.path]
      constructor
      · rintro ⟨mode, hmode⟩
        cases mode with
        | read => exact hmode
        | write => exact checkPermissions_read_of_write hmode
      · intro hread
        exact ⟨.read, hread⟩

end Prefixes

section Paths

variable {a b c app pre path x y : Text}

theorem Within.trans (hab : Within a b) (hbc : Within b c) : Within a c := by
  rcases within_iff.mp hab with rfl | ⟨rest, rfl⟩
  · exact hbc
  · rcases within_iff.mp hbc with rfl | ⟨more, rfl⟩
    · exact within_iff.mpr (.inr ⟨rest, rfl⟩)
    · exact within_iff.mpr (.inr ⟨rest ++ '/' :: more, by simp⟩)

theorem within_stash_stash : Within (catalogStashPrefix ++ a) (catalogStashPrefix ++ x) ↔
    Within a x := by
  have hfree : '/' ∉ "_catalog".toList := by decide
  rw [stash_append, stash_append, within_below hfree hfree]
  exact and_iff_right rfl

theorem within_catalog (x : Text) : Within "_catalog".toList (catalogStashPrefix ++ x) :=
  within_iff.mpr (.inr ⟨x, rfl⟩)

-- A root above a stashed path that is stashed itself, or is the stash.
theorem within_stash (h : Within a (catalogStashPrefix ++ x)) :
    a = "_catalog".toList ∨ ∃ rest, a = catalogStashPrefix ++ rest ∧ Within rest x := by
  have hfree : '/' ∉ "_catalog".toList := by decide
  by_cases ha : '/' ∈ a
  · obtain ⟨first, rest, rfl, hfirst⟩ := List.eq_append_cons_of_mem ha
    rw [stash_append, within_below hfirst hfree] at h
    obtain ⟨rfl, hrest⟩ := h
    exact .inr ⟨rest, rfl, hrest⟩
  · rw [stash_append, within_first ha hfree] at h
    exact .inl h

-- Descent along the stash prefixes of the root.
theorem within_of_stashed (hstash : Within a (catalogStashPrefix ++ x))
    (hbelow : Within (catalogStashPrefix ++ a) x) : Within a x := by
  induction hlen : a.length using Nat.strong_induction_on generalizing a x with
  | _ n ih =>
      obtain ⟨y, rfl, hy⟩ : ∃ y, x = catalogStashPrefix ++ y ∧ Within a y := by
        rcases within_iff.mp hbelow with rfl | ⟨rest, rfl⟩
        · exact ⟨a, rfl, .inl rfl⟩
        · exact ⟨a ++ '/' :: rest, List.append_assoc _ _ _, within_iff.mpr (.inr ⟨rest, rfl⟩)⟩
      rcases within_stash hstash with rfl | ⟨rest, rfl, hrest⟩
      · exact within_catalog y
      · have hshort : rest.length < n := by
          rw [← hlen, List.length_append]
          have hpos : 0 < catalogStashPrefix.length := by decide
          omega
        exact within_stash_stash.mpr (ih rest.length hshort hrest hy rfl)

theorem exists_not_ofApp (app : Text) : ∃ path, ¬ OfApp app path := by
  refine ⟨app ++ ['x'], ?_⟩
  have hstash : catalogStashPrefix.length = 9 := by decide
  rintro (h | h)
  · rcases within_iff.mp h with heq | ⟨rest, heq⟩
    · have hlen := congrArg List.length heq
      simp at hlen
    · have hlast := List.append_cancel_left heq
      exact absurd (List.cons.inj hlast).1 (by decide)
  · rcases within_iff.mp h with heq | ⟨rest, heq⟩
    · have hlen := congrArg List.length heq
      simp only [List.length_append, List.length_singleton] at hlen
      omega
    · have hlen := congrArg List.length heq
      simp only [List.length_append, List.length_cons, List.length_nil] at hlen
      omega

theorem coversPath_iff_of_ne (h : pre ≠ "*".toList) : CoversPath pre path ↔ Within pre path :=
  or_iff_right h

-- What a prefix covers is the app's exactly when the prefix is.
theorem covers_ofApp_iff : (∀ path, Covers pre path → OfApp app path) ↔
    pre ≠ "*".toList ∧ Within app pre := by
  constructor
  · intro h
    have hne : pre ≠ "*".toList := by
      rintro rfl
      obtain ⟨path, hpath⟩ := exists_not_ofApp app
      exact hpath (h path (.inl (.inl rfl)))
    refine ⟨hne, ?_⟩
    rcases h pre (.inl ((coversPath_iff_of_ne hne).mpr (.inl rfl))) with hplain | halias
    · exact hplain
    · -- a stashed prefix covers its own stash as well
      have hpre : pre ≠ [] := by
        rintro rfl
        rcases within_iff.mp halias with heq | ⟨rest, heq⟩ <;> cases heq
      have hcovers : Covers pre (catalogStashPrefix ++ pre) :=
        .inr ⟨pre, hpre, rfl, (coversPath_iff_of_ne hne).mpr (.inl rfl)⟩
      rcases h _ hcovers with hplain | hagain
      · exact within_of_stashed hplain halias
      · exact within_stash_stash.mp hagain
  · rintro ⟨hne, hwithin⟩ path (hcovers | ⟨rest, -, rfl, hcovers⟩)
    · exact .inl (hwithin.trans ((coversPath_iff_of_ne hne).mp hcovers))
    · exact .inr (within_stash_stash.mpr (hwithin.trans ((coversPath_iff_of_ne hne).mp hcovers)))

theorem authorizesOnly_iff_confined (acl : Value) : AuthorizesOnly app acl ↔ Confined app acl := by
  unfold AuthorizesOnly Confined
  simp only [reaches_iff_covers, ← covers_ofApp_iff]
  constructor
  · intro h pre hpre path hcovers
    exact h (.kv path) ⟨pre, hpre, hcovers⟩
  · rintro h resource ⟨pre, hpre, hcovers⟩
    exact h pre hpre resource.path hcovers

end Paths

end Stra2us.Acl
