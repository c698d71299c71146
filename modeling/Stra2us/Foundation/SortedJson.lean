import Mathlib.Data.List.Sort
import Stra2us.Foundation.JsonDocument

namespace Stra2us.Foundation

namespace Value

-- The value under a string key of what may be a mapping.
def field : Value → Text → Option Value
  | .dict pairs, key => lookup pairs key
  | _, _ => Option.none

theorem mem_of_lookup {pairs : List (Value × Value)} {key : Text} {value : Value}
    (h : lookup pairs key = some value) : (.str key, value) ∈ pairs := by
  induction pairs with
  | nil => cases h
  | cons pair rest ih =>
      obtain ⟨name, found⟩ := pair
      cases name with
      | str name =>
          rw [lookup_str_cons] at h
          by_cases heq : name = key
          · rw [if_pos heq] at h
            rw [heq, Option.some.inj h]
            exact List.mem_cons_self
          · rw [if_neg heq] at h
            exact List.mem_cons_of_mem _ (ih h)
      | _ => exact List.mem_cons_of_mem _ (ih h)

theorem lookup_of_mem {pairs : List (Value × Value)} {key : Text} {value : Value}
    (hdistinct : (pairs.map Prod.fst).Nodup) (h : (.str key, value) ∈ pairs) :
    lookup pairs key = some value := by
  induction pairs with
  | nil => exact absurd h List.not_mem_nil
  | cons pair rest ih =>
      rw [List.map_cons, List.nodup_cons] at hdistinct
      have hhere {name : Value} (hname : pair.1 = name) (hne : name ≠ .str key) :
          (.str key, value) ∈ rest := by
        rcases List.mem_cons.mp h with heq | hrest
        · rw [← heq] at hname
          exact absurd hname.symm hne
        · exact hrest
      obtain ⟨name, found⟩ := pair
      cases name with
      | str name =>
          rw [lookup_str_cons]
          by_cases heq : name = key
          · rw [if_pos heq]
            rcases List.mem_cons.mp h with hpair | hrest
            · exact congrArg some (Prod.mk.inj hpair).2.symm
            · rw [heq] at hdistinct
              exact absurd (List.mem_map.mpr ⟨_, hrest, rfl⟩) hdistinct.1
          · rw [if_neg heq]
            refine ih hdistinct.2 (hhere rfl ?_)
            intro hstr
            exact heq (Value.str.inj hstr)
      | _ => exact ih hdistinct.2 (hhere rfl (by simp))

theorem lookup_iff {pairs : List (Value × Value)} {key : Text} {value : Value}
    (hdistinct : (pairs.map Prod.fst).Nodup) :
    lookup pairs key = some value ↔ (.str key, value) ∈ pairs :=
  ⟨mem_of_lookup, lookup_of_mem hdistinct⟩

end Value

namespace Json

section Canon

-- Keys are ordered by their code points.
def keyUnits : Value → List Nat
  | .str text => text.map Char.toNat
  | .surrogates units => units
  | _ => []

def unitsUpTo : List Nat → List Nat → Bool
  | [], _ => true
  | _ :: _, [] => false
  | a :: as, b :: bs => a < b || (a = b && unitsUpTo as bs)

def sortKeys (pairs : List (Value × Value)) : List (Value × Value) :=
  pairs.insertionSort fun a b => unitsUpTo (keyUnits a.1) (keyUnits b.1)

-- Every mapping with its keys in order, as deep as this.
def canon : Nat → Value → Value
  | 0, value => value
  | depth + 1, value =>
      match value with
      | .list items => .list (items.map (canon depth))
      | .dict pairs => .dict (sortKeys (pairs.map fun pair => (pair.1, canon depth pair.2)))
      | atom => atom

-- `json.dumps(value, sort_keys=True)`
def dumpsSorted (depth : Nat) (value : Value) : Except Error Text :=
  dumpsValue depth (canon depth value)

end Canon

section Clean

def hasNoJson : Value → Bool
  | .bytes _ | .ext _ _ | .timestamp _ _ | .foreign _ _ => true
  | _ => false

def isStrOrBytes : Value → Bool
  | .str _ | .bytes _ => true
  | _ => false

-- Values with texts for their strings, one NaN and distinct keys.
inductive Clean : Value → Prop
  | none : Clean .none
  | bool (b : Bool) : Clean (.bool b)
  | int (n : Int) : Clean (.int n)
  | float {x : Binary64} (h : x.isNan = true → x = .nan) : Clean (.float x)
  | str (text : Text) : Clean (.str text)
  | noJson {value : Value} (h : hasNoJson value) : Clean value
  | list {items : List Value} (h : ∀ item ∈ items, Clean item) : Clean (.list items)
  | dict {pairs : List (Value × Value)} (hkeys : ∀ pair ∈ pairs, isStrOrBytes pair.1)
      (hdistinct : (pairs.map Prod.fst).Nodup) (h : ∀ pair ∈ pairs, Clean pair.2) :
      Clean (.dict pairs)

theorem Clean.pairs {pairs : List (Value × Value)} (h : Clean (.dict pairs)) :
    (∀ pair ∈ pairs, isStrOrBytes pair.1) ∧ (pairs.map Prod.fst).Nodup ∧
      ∀ pair ∈ pairs, Clean pair.2 := by
  cases h with
  | noJson h => exact absurd h (by simp [hasNoJson])
  | dict hkeys hdistinct h => exact ⟨hkeys, hdistinct, h⟩

theorem sortKeys_perm (pairs : List (Value × Value)) : (sortKeys pairs).Perm pairs :=
  List.perm_insertionSort _ _

def isFlat : Value → Bool
  | .list _ | .dict _ => false
  | _ => true

theorem canon_flat {value : Value} (h : isFlat value) (depth : Nat) :
    canon depth value = value := by
  cases depth with
  | zero => rfl
  | succ depth =>
      cases value with
      | list | dict => exact absurd h (by simp [isFlat])
      | _ => rfl

theorem isFlat_of_hasNoJson {value : Value} (h : hasNoJson value) : isFlat value := by
  cases value with
  | list | dict => exact absurd h (by simp [hasNoJson])
  | _ => rfl

theorem map_fst_canon (depth : Nat) (pairs : List (Value × Value)) :
    (pairs.map fun pair => (pair.1, canon depth pair.2)).map Prod.fst = pairs.map Prod.fst := by
  simp

theorem Clean.canon {value : Value} (h : Clean value) (depth : Nat) :
    Clean (canon depth value) := by
  induction h generalizing depth with
  | none =>
      rw [canon_flat rfl]
      exact .none
  | bool b =>
      rw [canon_flat rfl]
      exact .bool b
  | int n =>
      rw [canon_flat rfl]
      exact .int n
  | float h =>
      rw [canon_flat rfl]
      exact .float h
  | str text =>
      rw [canon_flat rfl]
      exact .str text
  | noJson h =>
      rw [canon_flat (isFlat_of_hasNoJson h)]
      exact .noJson h
  | list h ih =>
      cases depth with
      | zero => exact .list h
      | succ depth =>
          refine .list ?_
          intro item hitem
          obtain ⟨before, hbefore, rfl⟩ := List.mem_map.mp hitem
          exact ih before hbefore depth
  | @dict pairs hkeys hdistinct h ih =>
      cases depth with
      | zero => exact .dict hkeys hdistinct h
      | succ depth =>
          have hmem {pair : Value × Value} (hpair : pair ∈ sortKeys
              (pairs.map fun pair => (pair.1, Json.canon depth pair.2))) :
              ∃ before ∈ pairs, (before.1, Json.canon depth before.2) = pair := by
            rw [(sortKeys_perm _).mem_iff, List.mem_map] at hpair
            exact hpair
          refine .dict ?_ ?_ ?_
          · intro pair hpair
            obtain ⟨before, hbefore, rfl⟩ := hmem hpair
            exact hkeys before hbefore
          · rw [((sortKeys_perm _).map Prod.fst).nodup_iff, map_fst_canon]
            exact hdistinct
          · intro pair hpair
            obtain ⟨before, hbefore, rfl⟩ := hmem hpair
            exact ih before hbefore depth

end Clean

section Injective

theorem dumpsMember_ok_iff {depth : Nat} {pair : Value × Value} {text : Text} :
    dumpsMember depth pair = .ok text ↔ ∃ name body, keyText pair.1 = .ok name ∧
      dumpsValue depth pair.2 = .ok body ∧ memberText [' '] name body = text := by
  unfold dumpsMember
  cases keyText pair.1 with
  | error e => simp [bind, Except.bind]
  | ok name =>
      cases dumpsValue depth pair.2 with
      | error e => simp [bind, Except.bind]
      | ok body => simp [bind, Except.bind]

theorem dumpsValue_list_ok_iff {depth : Nat} {items : List Value} {text : Text} :
    dumpsValue (depth + 1) (.list items) = .ok text ↔
      ∃ parts, items.mapM (dumpsValue depth) = .ok parts ∧ arrayText [' '] parts = text := by
  rw [dumpsValue_list]
  cases items.mapM (dumpsValue depth) with
  | error e => simp [bind, Except.bind]
  | ok parts => simp [bind, Except.bind]

theorem dumpsValue_dict_ok_iff {depth : Nat} {pairs : List (Value × Value)} {text : Text} :
    dumpsValue (depth + 1) (.dict pairs) = .ok text ↔
      ∃ parts, pairs.mapM (dumpsMember depth) = .ok parts ∧ objectText [' '] parts = text := by
  rw [dumpsValue_dict]
  cases pairs.mapM (dumpsMember depth) with
  | error e => simp [bind, Except.bind]
  | ok parts => simp [bind, Except.bind]

-- With more room the same is written.
theorem dumpsValue_succ {depth : Nat} {value : Value} {text : Text}
    (h : dumpsValue depth value = .ok text) : dumpsValue (depth + 1) value = .ok text := by
  induction depth generalizing value text with
  | zero => cases h
  | succ depth ih =>
      cases value with
      | list items =>
          rw [dumpsValue_list_ok_iff] at h ⊢
          obtain ⟨parts, hparts, htext⟩ := h
          refine ⟨parts, ?_, htext⟩
          rw [mapM_ok_iff] at hparts ⊢
          exact hparts.imp fun _ _ hitem => ih hitem
      | dict pairs =>
          rw [dumpsValue_dict_ok_iff] at h ⊢
          obtain ⟨parts, hparts, htext⟩ := h
          refine ⟨parts, ?_, htext⟩
          rw [mapM_ok_iff] at hparts ⊢
          refine hparts.imp ?_
          intro pair part hpair
          rw [dumpsMember_ok_iff] at hpair ⊢
          obtain ⟨name, body, hname, hbody, hpart⟩ := hpair
          exact ⟨name, body, hname, ih hbody, hpart⟩
      | bool b =>
          cases b with
          | true => exact h
          | false => exact h
      | _ => exact h

theorem isString_of_keyText {key : Value} {name : Text} (hkey : isStrOrBytes key)
    (h : keyText key = .ok name) : IsString key := by
  cases key with
  | str text => trivial
  | bytes data => cases h
  | _ => exact absurd hkey (by simp [isStrOrBytes])

-- By induction on the value: what has no JSON is not written, and the rest is a document.
theorem Clean.document {value : Value} (hclean : Clean value) {depth : Nat} {text : Text}
    (h : dumpsValue depth value = .ok text) : Document depth value := by
  induction hclean generalizing depth text with
  | none => exact .none
  | bool b => exact .bool b
  | int n =>
      cases depth with
      | zero => cases h
      | succ depth =>
          refine .int ?_
          by_contra hlong
          change (if _ then _ else _) = Except.ok text at h
          rw [if_neg hlong] at h
          cases h
  | float hnan => exact .float hnan
  | str text => exact .string trivial
  | @noJson value hno =>
      cases depth with
      | zero => cases h
      | succ depth =>
          cases value with
          | bytes | ext | timestamp | foreign => cases h
          | _ => exact absurd hno (by simp [hasNoJson])
  | list _ ih =>
      cases depth with
      | zero => cases h
      | succ depth =>
          obtain ⟨parts, hparts, -⟩ := dumpsValue_list_ok_iff.mp h
          refine .list ?_
          intro item hitem
          obtain ⟨part, hpart⟩ := exists_mapM_iff.mp ⟨parts, hparts⟩ item hitem
          exact ih item hitem hpart
  | dict hkeys hdistinct _ ih =>
      cases depth with
      | zero => cases h
      | succ depth =>
          obtain ⟨parts, hparts, -⟩ := dumpsValue_dict_ok_iff.mp h
          have hmember {pair : Value × Value} (hpair : pair ∈ _) :=
            exists_mapM_iff.mp ⟨parts, hparts⟩ pair hpair
          refine .dict ?_ hdistinct ?_
          · intro pair hpair
            obtain ⟨part, hpart⟩ := hmember hpair
            obtain ⟨name, body, hname, -⟩ := dumpsMember_ok_iff.mp hpart
            exact isString_of_keyText (hkeys pair hpair) hname
          · intro pair hpair
            obtain ⟨part, hpart⟩ := hmember hpair
            obtain ⟨name, body, -, hbody, -⟩ := dumpsMember_ok_iff.mp hpart
            exact ih pair hpair hbody

theorem Clean.loads_dumps {value : Value} (hclean : Clean value) {depth : Nat} {text : Text}
    (h : dumpsValue depth value = .ok text) : loads depth text = .ok value := by
  obtain ⟨again, hagain, hloads⟩ := (hclean.document h).loads_dumps
  rw [dumpsValue_succ h] at hagain
  rw [Except.ok.inj hagain]
  exact hloads

-- What was written tells the value, but for the order of its keys.
theorem Clean.canon_eq {a b : Value} (ha : Clean a) (hb : Clean b) {depth : Nat} {text : Text}
    (hdumps : dumpsSorted depth a = .ok text) (hsame : dumpsSorted depth b = .ok text) :
    Json.canon depth a = Json.canon depth b := by
  have hleft := (ha.canon depth).loads_dumps hdumps
  have hright := (hb.canon depth).loads_dumps hsame
  rw [hleft] at hright
  exact Except.ok.inj hright

-- A mapping with its keys in order has the same fields.
theorem Clean.field_canon {value : Value} (hclean : Clean value) (depth : Nat) (key : Text) :
    (Json.canon depth value).field key = (value.field key).map (Json.canon (depth - 1)) := by
  cases depth with
  | zero =>
      have hself : Json.canon 0 = id := rfl
      rw [Nat.zero_sub, hself, Option.map_id]
      rfl
  | succ depth =>
      cases value with
      | dict pairs =>
          obtain ⟨-, hdistinct, -⟩ := hclean.pairs
          let images := pairs.map fun pair => (pair.1, Json.canon depth pair.2)
          have hsorted : ((sortKeys images).map Prod.fst).Nodup := by
            rw [((sortKeys_perm _).map Prod.fst).nodup_iff, map_fst_canon]
            exact hdistinct
          change Value.lookup (sortKeys images) key =
            (Value.lookup pairs key).map (Json.canon depth)
          apply Option.ext
          intro found
          rw [Option.map_eq_some_iff, Value.lookup_iff hsorted, (sortKeys_perm _).mem_iff,
            List.mem_map]
          constructor
          · rintro ⟨⟨name, before⟩, hmem, heq⟩
            obtain ⟨rfl, rfl⟩ := Prod.mk.inj heq
            exact ⟨before, (Value.lookup_iff hdistinct).mpr hmem, rfl⟩
          · rintro ⟨before, hlookup, rfl⟩
            exact ⟨(.str key, before), (Value.lookup_iff hdistinct).mp hlookup, rfl⟩
      | _ => rfl

end Injective

end Json

end Stra2us.Foundation
