import Stra2us.Foundation.Dict
import Stra2us.Foundation.JsonLiteral
import Stra2us.Server.Form

namespace Stra2us.Client

open Foundation

inductive VarType
  | int
  | float
  | string
  | bool
  | enum
deriving DecidableEq, Repr

inductive VarScope
  | app
  | device
deriving DecidableEq, Repr

-- A validated variable, with what the command line looks at. Only an enum has `values`.
structure Var where
  type : VarType
  scope : List VarScope
  range : Option (Number × Number)
  values : List Text
  encrypted : Bool

structure Catalog where
  app : Text
  vars : Dict Text Var

inductive CatalogError
  | expectedInt (name raw : Text)
  | expectedFloat (name raw : Text)
  | expectedBool (name raw : Text)
  | notAllowed (name raw : Text) (values : List Text)
  | outsideRange (name : Text) (value lo hi : Number)
  | notValidAt (key : Text) (scope : VarScope) (scopes : List VarScope)
deriving DecidableEq, Repr

def isVarChar (c : Char) : Bool :=
  c.isLower || c.isDigit || c = '_'

-- `VAR_NAME_RE`: the end of the pattern also matches before a last line feed.
def isVarName (name : Text) : Bool :=
  match name with
  | first :: rest =>
      first.isLower &&
        (rest.all isVarChar || (rest.getLast? = some '\n' && rest.dropLast.all isVarChar))
  | [] => false

theorem mem_varName {name : Text} (h : isVarName name) {c : Char} (hc : c ∈ name) :
    isVarChar c ∨ c = '\n' := by
  cases name with
  | nil => cases h
  | cons first rest =>
      simp only [isVarName, Bool.and_eq_true, Bool.or_eq_true, decide_eq_true_eq] at h
      obtain ⟨hfirst, hrest⟩ := h
      rcases List.mem_cons.mp hc with rfl | hc
      · simp [isVarChar, hfirst]
      · rcases hrest with hall | ⟨hlast, hall⟩
        · exact .inl (List.all_eq_true.mp hall c hc)
        · obtain ⟨body, rfl⟩ := List.getLast?_eq_some_iff.mp hlast
          rw [List.dropLast_concat] at hall
          rcases List.mem_append.mp hc with hc | hc
          · exact .inl (List.all_eq_true.mp hall c hc)
          · exact .inr (List.mem_singleton.mp hc)

section Coerce

def trueWords : List Text :=
  ["true".toList, "1".toList, "yes".toList, "y".toList, "on".toList]

def falseWords : List Text :=
  ["false".toList, "0".toList, "no".toList, "n".toList, "off".toList]

def checkRange (range : Option (Number × Number)) (name : Text) (v : Number) :
    Except CatalogError Unit :=
  match range with
  | some (lo, hi) => if v.lt lo ∨ hi.lt v then .error (.outsideRange name v lo hi) else .ok ()
  | none => .ok ()

-- No letter but an ASCII one has a lower case that occurs in one of the words.
def coerceValue (var : Var) (raw name : Text) : Except CatalogError Value :=
  match var.type with
  | .int =>
      match parseInt raw with
      | some n => (checkRange var.range name (.int n)).map fun _ => .int n
      | none => .error (.expectedInt name raw)
  | .float =>
      match parseFloat raw with
      | some x => (checkRange var.range name (.float x)).map fun _ => .float x
      | none => .error (.expectedFloat name raw)
  | .bool =>
      let s := (strip raw).map Char.toLower
      if s ∈ trueWords then .ok (.bool true)
      else if s ∈ falseWords then .ok (.bool false)
      else .error (.expectedBool name raw)
  | .enum =>
      if raw ∈ var.values then .ok (.str raw) else .error (.notAllowed name raw var.values)
  | .string => .ok (.str raw)

end Coerce

def kvPath (app key : Text) (device : Option Text) : Text :=
  match device with
  | none => app ++ "/public/".toList ++ key
  | some device => app ++ '/' :: device ++ '/' :: key

section Agreement

open Server

variable {site : Site} {var : Var} {raw name : Text} {v : Value}

-- The texts whose JSON reading is of the variable's type.
def ReadsAlike (jsonDepth : Nat) (type : VarType) (raw : Text) : Prop :=
  match type with
  | .int => ∃ body n, Json.Padded body raw ∧ Json.IntLiteral body n
  | .float => ∃ body x, Json.Padded body raw ∧ Json.FloatLiteral body x
  | .bool => ∃ b, Json.Padded (Json.boolText b) raw
  | .string | .enum =>
      Json.loads jsonDepth raw = .error .value ∨ Json.loads jsonDepth raw = .error .digits

theorem checkRange_map_ok {range : Option (Number × Number)} {x : Number}
    (h : ((checkRange range name x).map fun _ => v) = .ok value) : v = value := by
  cases hcheck : checkRange range name x with
  | error e =>
      rw [hcheck] at h
      cases h
  | ok _ =>
      rw [hcheck] at h
      exact Except.ok.inj h

theorem loads_nil (depth : Nat) : Json.loads depth [] = .error .value := by
  cases depth with
  | zero => rfl
  | succ depth => rfl

-- The form takes a text as JSON where it is, and as itself where it is not.
theorem decodeFormValue_ok_iff :
    decodeFormValue site raw = .ok v ↔ Json.loads site.jsonDepth raw = .ok v ∨
      (Json.loads site.jsonDepth raw = .error .value ∨
        Json.loads site.jsonDepth raw = .error .digits) ∧ v = .str raw := by
  unfold decodeFormValue coerceJson
  split
  · rename_i hempty
    rw [hempty, loads_nil]
    simp [eq_comm]
  · cases hloads : Json.loads site.jsonDepth raw with
    | ok value => simp
    | error e =>
        cases e with
        | value => simp [eq_comm]
        | digits => simp [eq_comm]
        | recursion => simp

theorem decodeFormValue_of_not_str (h : ∀ text, v ≠ .str text) :
    decodeFormValue site raw = .ok v ↔ Json.loads site.jsonDepth raw = .ok v := by
  rw [decodeFormValue_ok_iff]
  simp [h]

theorem coerceValue_int {n : Int} (h : coerceValue var raw name = .ok v) (htype : var.type = .int)
    (hparse : parseInt raw = some n) : v = .int n := by
  simp only [coerceValue, htype, hparse] at h
  exact (checkRange_map_ok h).symm

theorem coerceValue_float {x : Binary64} (h : coerceValue var raw name = .ok v)
    (htype : var.type = .float) (hparse : parseFloat raw = some x) : v = .float x := by
  simp only [coerceValue, htype, hparse] at h
  exact (checkRange_map_ok h).symm

theorem coerceValue_bool {b : Bool} (h : coerceValue var raw name = .ok v)
    (htype : var.type = .bool) (hstrip : strip raw = Json.boolText b) : v = .bool b := by
  simp only [coerceValue, htype, hstrip] at h
  cases b with
  | true =>
      rw [if_pos (by decide)] at h
      exact (Except.ok.inj h).symm
  | false =>
      rw [if_neg (by decide), if_pos (by decide)] at h
      exact (Except.ok.inj h).symm

-- What the coerced value is an instance of.
theorem coerceValue_kind (h : coerceValue var raw name = .ok v) :
    match var.type with
    | .int => ∃ n, v = .int n
    | .float => ∃ x, v = .float x
    | .bool => ∃ b, v = .bool b
    | .string | .enum => v = .str raw := by
  unfold coerceValue at h
  split at h
  · rename_i htype
    rw [htype]
    split at h
    · exact ⟨_, (checkRange_map_ok h).symm⟩
    · cases h
  · rename_i htype
    rw [htype]
    split at h
    · exact ⟨_, (checkRange_map_ok h).symm⟩
    · cases h
  · rename_i htype
    rw [htype]
    dsimp only at h
    split at h
    · exact ⟨_, (Except.ok.inj h).symm⟩
    split at h
    · exact ⟨_, (Except.ok.inj h).symm⟩
    · cases h
  · rename_i htype
    rw [htype]
    split at h
    · exact (Except.ok.inj h).symm
    · cases h
  · rename_i htype
    rw [htype]
    exact (Except.ok.inj h).symm

theorem isScalar_of_coerceValue (h : coerceValue var raw name = .ok v) : Msgpack.isScalar v := by
  have hkind := coerceValue_kind h
  split at hkind
  · obtain ⟨n, rfl⟩ := hkind
    rfl
  · obtain ⟨x, rfl⟩ := hkind
    rfl
  · obtain ⟨b, rfl⟩ := hkind
    rfl
  · rw [hkind]
    rfl
  · rw [hkind]
    rfl

-- The two write paths come to one value exactly on those texts.
theorem decodeFormValue_coerced (h : coerceValue var raw name = .ok v) :
    decodeFormValue site raw = .ok v ↔ ReadsAlike site.jsonDepth var.type raw := by
  have hkind := coerceValue_kind h
  cases htype : var.type with
  | int =>
      rw [htype] at hkind
      obtain ⟨n, rfl⟩ := hkind
      rw [decodeFormValue_of_not_str (by simp), Json.loads_int_iff]
      constructor
      · rintro ⟨body, hpadded, hliteral⟩
        exact ⟨body, n, hpadded, hliteral⟩
      · rintro ⟨body, m, hpadded, hliteral⟩
        have hsame := coerceValue_int h htype (hpadded.parseInt hliteral)
        obtain rfl := Value.int.inj hsame
        exact ⟨body, hpadded, hliteral⟩
  | float =>
      rw [htype] at hkind
      obtain ⟨x, rfl⟩ := hkind
      rw [decodeFormValue_of_not_str (by simp), Json.loads_float_iff]
      constructor
      · rintro ⟨body, hpadded, hliteral⟩
        exact ⟨body, x, hpadded, hliteral⟩
      · rintro ⟨body, y, hpadded, hliteral⟩
        have hsame := coerceValue_float h htype (hpadded.parseFloat hliteral)
        obtain rfl := Value.float.inj hsame
        exact ⟨body, hpadded, hliteral⟩
  | bool =>
      rw [htype] at hkind
      obtain ⟨b, rfl⟩ := hkind
      rw [decodeFormValue_of_not_str (by simp), Json.loads_bool_iff]
      constructor
      · intro hpadded
        exact ⟨b, hpadded⟩
      · rintro ⟨c, hpadded⟩
        have hsame := coerceValue_bool h htype hpadded.strip
        obtain rfl := Value.bool.inj hsame
        exact hpadded
  | string =>
      rw [htype] at hkind
      rw [hkind, decodeFormValue_ok_iff]
      simp [ReadsAlike, Json.loads_ne_self]
  | enum =>
      rw [htype] at hkind
      rw [hkind, decodeFormValue_ok_iff]
      simp [ReadsAlike, Json.loads_ne_self]

end Agreement

end Stra2us.Client
