import Stra2us.Server.Wire

namespace Stra2us.Device

open Foundation Server

-- An answer, or an error that is the client's.
def Graceful {α : Type} : Except Exn α → Prop
  | .ok _ => True
  | .error (.http status _) => 400 ≤ status ∧ status < 500
  | .error _ => False

section Rules

variable {α β : Type} {w : World}

@[simp] theorem graceful_ok (value : α) : Graceful (.ok value : Except Exn α) := trivial

@[simp] theorem not_graceful_python (name : Text) :
    ¬ Graceful (.error (.python name) : Except Exn α) := id

@[simp] theorem graceful_http (status : Nat) (detail : Text) :
    Graceful (.error (.http status detail) : Except Exn α) ↔ 400 ≤ status ∧ status < 500 :=
  Iff.rfl

theorem graceful_error (exn : Exn) :
    Graceful (.error exn : Except Exn α) ↔ Graceful (.error exn : Except Exn β) := by
  cases exn <;> rfl

theorem graceful_map (f : α → β) (result : Except Exn α) :
    Graceful (result.map f) ↔ Graceful result := by
  cases result with
  | ok value => exact Iff.rfl
  | error exn => exact graceful_error exn

-- What goes on after a step has to do well only where the step went through.
theorem graceful_bind (first : Except Exn α) (next : α → Except Exn β) :
    Graceful (first >>= next) ↔ Graceful first ∧ ∀ value, first = .ok value → Graceful (next value) := by
  cases first with
  | error exn =>
      refine (graceful_error exn).trans ⟨fun h => ⟨h, fun _ hok => nomatch hok⟩, And.left⟩
  | ok value =>
      constructor
      · intro h
        refine ⟨trivial, fun other hother => ?_⟩
        rw [← Except.ok.inj hother]
        exact h
      · rintro ⟨-, h⟩
        exact h value rfl

theorem graceful_runOn_bind (handler : Handler α) (next : α → Handler β) :
    Graceful ((handler >>= next).runOn w).1 ↔ Graceful (handler.runOn w).1 ∧
      ∀ value w', handler.runOn w = (.ok value, w') → Graceful ((next value).runOn w').1 := by
  rw [Handler.runOn_bind]
  cases hrun : handler.runOn w with
  | mk result w' =>
      cases result with
      | error exn =>
          refine (graceful_error exn).trans ⟨fun h => ⟨h, fun _ _ hok => ?_⟩, And.left⟩
          cases congrArg Prod.fst hok
      | ok value =>
          constructor
          · intro h
            refine ⟨trivial, fun other w'' hother => ?_⟩
            obtain ⟨hvalue, rfl⟩ := Prod.mk.inj hother
            rw [← Except.ok.inj hvalue]
            exact h
          · rintro ⟨-, h⟩
            exact h value w' rfl

theorem graceful_check (check : Except Exn α) (next : α → Handler β) :
    Graceful ((Handler.ofExcept check >>= next).runOn w).1 ↔ Graceful check ∧
      ∀ value, check = .ok value → Graceful ((next value).runOn w).1 := by
  rw [graceful_runOn_bind, Handler.runOn_ofExcept]
  refine and_congr_right fun _ => ⟨fun h value hvalue => ?_, fun h value w' hrun => ?_⟩
  · exact h value w (by rw [hvalue])
  · obtain ⟨hvalue, rfl⟩ := Prod.mk.inj hrun
    exact h value hvalue

-- What a read comes to.
theorem runOn_get_bind (key : Text) (next : Option Bytes → Handler β) :
    (Handler.get key >>= next).runOn w = (next (w.store.get key)).runOn w := rfl

theorem runOn_check_ok {check : Except Exn α} {next : α → Handler β} {result : β} {w' : World}
    (h : (Handler.ofExcept check >>= next).runOn w = (.ok result, w')) :
    ∃ value, check = .ok value ∧ (next value).runOn w = (.ok result, w') := by
  obtain ⟨value, w₁, hcheck, hnext⟩ := Handler.runOn_bind_ok.mp h
  rw [Handler.runOn_ofExcept] at hcheck
  rw [← (Prod.mk.inj hcheck).2] at hnext
  exact ⟨value, (Prod.mk.inj hcheck).1, hnext⟩

theorem graceful_runOn_map (handler : Handler α) (f : α → β) :
    Graceful ((f <$> handler).runOn w).1 ↔ Graceful (handler.runOn w).1 := by
  rw [Handler.runOn_map]
  exact graceful_map f _

-- A step with no error of its own.
theorem graceful_iff_ok {result : Except Exn α}
    (h : ∀ exn, result = .error exn → ¬ Graceful result) :
    Graceful result ↔ ∃ value, result = .ok value := by
  cases result with
  | ok value => exact iff_of_true trivial ⟨value, rfl⟩
  | error exn =>
      refine iff_of_false (h exn rfl) ?_
      rintro ⟨value, hvalue⟩
      cases hvalue

end Rules

section Permissions

-- A prefix that can be compared with a path. One that is missing counts as the empty one.
def IsPrefix (fields : List (Value × Value)) : Prop :=
  match Value.lookup fields "prefix".toList with
  | none | some (.str _) | some (.surrogates _) => True
  | some _ => False

def Covers (candidates : List Text) (fields : List (Value × Value)) : Prop :=
  anyMatches ((Value.lookup fields "prefix".toList).getD (.str [])) candidates = .ok true

-- Every permission up to the first that covers a path is a map with such a prefix.
def Walks (candidates : List Text) : List Value → Prop
  | [] => True
  | perm :: rest => ∃ fields, perm = .dict fields ∧ IsPrefix fields ∧
      (¬ Covers candidates fields → Walks candidates rest)

-- An ACL that can be checked: a map, with permissions that can be gone through.
def Checkable (acl : Value) (resource : Text) : Prop :=
  ∃ pairs, acl = .dict pairs ∧ ∃ items,
    iterate ((Value.lookup pairs "permissions".toList).getD (.list [])) = .ok items ∧
      Walks (aclCandidatePaths (stripResourceType resource)) items

theorem aclCandidatePaths_ne_nil (path : Text) : aclCandidatePaths path ≠ [] := by
  unfold aclCandidatePaths
  dsimp only
  split_ifs <;> simp

theorem anyMatches_ok {fields : List (Value × Value)} (h : IsPrefix fields) (paths : List Text) :
    ∃ found, anyMatches ((Value.lookup fields "prefix".toList).getD (.str [])) paths =
      .ok found := by
  have hone : ∀ path, ∃ found, prefixMatches
      ((Value.lookup fields "prefix".toList).getD (.str [])) path = .ok found := by
    intro path
    unfold IsPrefix at h
    split at h
    · next hnone =>
        rw [hnone]
        exact ⟨_, rfl⟩
    · next text htext =>
        rw [htext]
        exact ⟨_, rfl⟩
    · next units hunits =>
        rw [hunits]
        exact ⟨_, rfl⟩
    · exact h.elim
  induction paths with
  | nil => exact ⟨false, rfl⟩
  | cons path rest ih =>
      obtain ⟨found, hfound⟩ := hone path
      unfold anyMatches
      rw [hfound]
      cases found with
      | true => exact ⟨true, rfl⟩
      | false => exact ih

theorem anyMatches_stuck {fields : List (Value × Value)} (h : ¬ IsPrefix fields) {paths : List Text}
    (hne : paths ≠ []) : anyMatches ((Value.lookup fields "prefix".toList).getD (.str [])) paths =
      .error (.python "TypeError".toList) := by
  obtain ⟨path, rest, rfl⟩ := List.exists_cons_of_ne_nil hne
  unfold IsPrefix at h
  cases hlookup : Value.lookup fields "prefix".toList with
  | none =>
      rw [hlookup] at h
      exact absurd trivial h
  | some pre =>
      rw [hlookup] at h
      cases pre with
      | str text => exact absurd trivial h
      | surrogates units => exact absurd trivial h
      | _ => rfl

theorem graceful_checkPermissions {resource : Text} {candidates : List Text} {mode : Mode}
    (hne : candidates ≠ []) (items : List Value) :
    Graceful (checkPermissions resource candidates mode items) ↔ Walks candidates items := by
  induction items with
  | nil => exact iff_of_true (show 400 ≤ 403 ∧ 403 < 500 by omega) trivial
  | cons perm rest ih =>
      unfold checkPermissions Walks
      cases perm with
      | dict fields =>
          simp only [getField, bind, Except.bind, Value.dict.injEq]
          by_cases hbefore : IsPrefix fields
          · obtain ⟨found, hfound⟩ := anyMatches_ok hbefore candidates
            rw [hfound]
            cases found with
            | true =>
                have hcovers : Covers candidates fields := hfound
                have hdone : Graceful (if mode = .write ∧ ¬ isText
                    ((Value.lookup fields "access".toList).getD (.str "r".toList)) "rw".toList then
                      .error (.http 403 "Forbidden: Write access denied".toList)
                    else .ok () : Except Exn Unit) := by
                  split_ifs <;> simp
                refine iff_of_true hdone ⟨fields, rfl, hbefore, fun hnot => absurd hcovers hnot⟩
            | false =>
                have hnot : ¬ Covers candidates fields := by
                  unfold Covers
                  rw [hfound]
                  simp
                refine ih.trans ⟨fun h => ⟨fields, rfl, hbefore, fun _ => h⟩, ?_⟩
                rintro ⟨other, rfl, -, hrest⟩
                exact hrest hnot
          · rw [anyMatches_stuck hbefore hne]
            refine iff_of_false id ?_
            rintro ⟨other, rfl, h, -⟩
            exact hbefore h
      | _ =>
          refine iff_of_false id ?_
          rintro ⟨fields, hfields, -⟩
          cases hfields

theorem graceful_checkAcl (acl : Value) (resource : Text) (mode : Mode) :
    Graceful (checkAcl acl resource mode) ↔ Checkable acl resource := by
  unfold checkAcl Checkable
  cases acl with
  | dict pairs =>
      simp only [getField, bind, Except.bind, Value.dict.injEq]
      cases hiterate : iterate ((Value.lookup pairs "permissions".toList).getD (.list [])) with
      | ok items =>
          refine (graceful_checkPermissions (aclCandidatePaths_ne_nil _) items).trans ?_
          constructor
          · intro h
            exact ⟨pairs, rfl, items, hiterate, h⟩
          · rintro ⟨other, rfl, others, hothers, h⟩
            rw [hiterate] at hothers
            rw [Except.ok.inj hothers]
            exact h
      | error exn =>
          refine iff_of_false ?_ ?_
          · unfold iterate at hiterate
            split at hiterate <;> cases hiterate
            exact id
          · rintro ⟨other, rfl, items, hitems, -⟩
            rw [hiterate] at hitems
            cases hitems
  | _ =>
      refine iff_of_false id ?_
      rintro ⟨pairs, hpairs, -⟩
      cases hpairs

end Permissions

end Stra2us.Device
