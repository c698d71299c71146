import Stra2us.Client.Catalog
import Stra2us.Foundation.Msgpack

namespace Stra2us.Client

open Foundation

section Schema

-- A default as the schema reads it.
inductive Default
  | int (n : Int)
  | float (x : Binary64)
  | str (text : Text)
  | bool (b : Bool)
deriving DecidableEq, Repr

-- A variable whose fields have been read but not checked against each other.
structure VarFields where
  type : VarType
  default : Option Default
  defaultPerDevice : Bool
  defaultPerPlatform : Bool
  range : Option (Number × Number)
  values : Option (List Text)

inductive VarError
  | manyOrigins (setOrigins : List Text)
  | rangeOnType (type : VarType)
  | rangeOrder (lo hi : Number)
  | valuesRequired
  | valuesRepeat
  | defaultNotInValues (default : Default) (values : List Text)
  | valuesOnType (type : VarType)
  | defaultOfType (type : VarType) (got : Text)
  | defaultOutsideRange (default lo hi : Number)
deriving DecidableEq, Repr

-- Every boolean is an integer.
def Default.isInt : Default → Bool
  | .int _ | .bool _ => true
  | _ => false

def Default.typeName : Default → Text
  | .int _ => "int".toList
  | .float _ => "float".toList
  | .str _ => "str".toList
  | .bool _ => "bool".toList

def Default.hasType : VarType → Default → Bool
  | .int, default => default.isInt
  | .float, .float _ => true
  | .float, default => default.isInt
  | .string, .str _ | .enum, .str _ => true
  | .bool, .bool _ => true
  | _, _ => false

def Default.number? : Default → Option Number
  | .int n => some (.int n)
  | .float x => some (.float x)
  | _ => none

def setOrigins (v : VarFields) : List Text :=
  (if v.default.isSome then ["default".toList] else []) ++
    (if v.defaultPerDevice then ["default_per_device".toList] else []) ++
      if v.defaultPerPlatform then ["default_per_platform".toList] else []

def checkRangeField (v : VarFields) : Except VarError Unit :=
  match v.range with
  | none => .ok ()
  | some (lo, hi) =>
      if v.type ≠ .int ∧ v.type ≠ .float then .error (.rangeOnType v.type)
      else if hi.lt lo then .error (.rangeOrder lo hi)
      else .ok ()

def checkValuesField (v : VarFields) : Except VarError Unit :=
  match v.type, v.values with
  | .enum, none | .enum, some [] => .error .valuesRequired
  | .enum, some values =>
      if ¬ values.Nodup then .error .valuesRepeat
      else
        match v.default with
        | none => .ok ()
        | some (.str text) =>
            if text ∈ values then .ok () else .error (.defaultNotInValues (.str text) values)
        | some default => .error (.defaultNotInValues default values)
  | _, none => .ok ()
  | type, some _ => .error (.valuesOnType type)

def checkDefaultType (v : VarFields) : Except VarError Unit :=
  match v.default with
  | none => .ok ()
  | some default =>
      if default.hasType v.type then .ok () else .error (.defaultOfType v.type default.typeName)

def checkDefaultRange (v : VarFields) : Except VarError Unit :=
  match v.range, v.default.bind Default.number? with
  | some (lo, hi), some default =>
      if default.lt lo ∨ hi.lt default then .error (.defaultOutsideRange default lo hi)
      else .ok ()
  | _, _ => .ok ()

def crossFieldChecks (v : VarFields) : Except VarError Unit := do
  if 1 < (setOrigins v).length then .error (.manyOrigins (setOrigins v))
  checkRangeField v
  checkValuesField v
  checkDefaultType v
  checkDefaultRange v

-- A variable the schema accepts.
structure SchemaVar extends VarFields where
  accepted : crossFieldChecks toVarFields = .ok ()

end Schema

section Coerce

-- A word of the command line. Bytes that are no UTF-8 come as lone surrogates.
inductive Argument
  | text (raw : Text)
  | undecodable (units : List Nat)
deriving DecidableEq, Repr

def Argument.value : Argument → Value
  | .text raw => .str raw
  | .undecodable units => .surrogates units

-- `unread` is the same error about a word that is no text.
inductive CoerceError
  | catalog (e : CatalogError)
  | unread (type : VarType) (name : Text) (units : List Nat)
  | python (exception : Text)
deriving DecidableEq, Repr

-- `str` of an integer refuses what has too many digits.
def printable : Number → Bool
  | .int n => (natText n.natAbs).length ≤ maxIntDigits
  | .float _ => true

def rangeError (name : Text) (v lo hi : Number) : CoerceError :=
  if printable v ∧ printable lo ∧ printable hi then .catalog (.outsideRange name v lo hi)
  else .python "ValueError".toList

def checkBounds (range : Option (Number × Number)) (name : Text) (v : Number) :
    Except CoerceError Unit :=
  match range with
  | none => .ok ()
  | some (lo, hi) => if v.lt lo ∨ hi.lt v then .error (rangeError name v lo hi) else .ok ()

def coerceText (v : VarFields) (raw name : Text) : Except CoerceError Value :=
  match v.type with
  | .int =>
      match parseInt raw with
      | some n => (checkBounds v.range name (.int n)).map fun _ => .int n
      | none => .error (.catalog (.expectedInt name raw))
  | .float =>
      match parseFloat raw with
      | some x => (checkBounds v.range name (.float x)).map fun _ => .float x
      | none => .error (.catalog (.expectedFloat name raw))
  | .bool =>
      let s := (strip raw).map Char.toLower
      if s ∈ trueWords then .ok (.bool true)
      else if s ∈ falseWords then .ok (.bool false)
      else .error (.catalog (.expectedBool name raw))
  | .enum =>
      match v.values with
      | none => .error (.python "AssertionError".toList)
      | some values =>
          if raw ∈ values then .ok (.str raw) else .error (.catalog (.notAllowed name raw values))
  | .string => .ok (.str raw)

-- No number, no word for a boolean and none of the values has a lone surrogate.
def coerceArgument (v : VarFields) (raw : Argument) (name : Text) : Except CoerceError Value :=
  match raw with
  | .text raw => coerceText v raw name
  | .undecodable units =>
      match v.type, v.values with
      | .string, _ => .ok (.surrogates units)
      | .enum, none => .error (.python "AssertionError".toList)
      | type, _ => .error (.unread type name units)

-- How `set` goes on with the word it is given.
inductive SetOutcome
  | refused
  | crashed
  | written (body : Bytes)

def setArgument (v : VarFields) (raw : Argument) (name : Text) : SetOutcome :=
  match coerceArgument v raw name with
  | .error (.python _) => .crashed
  | .error _ => .refused
  | .ok value =>
      match Msgpack.packb value with
      | none => .crashed
      | some body => .written body

end Coerce

section Order

-- Two numbers of which neither is NaN, the first no greater than the second.
def AtMost (a b : Number) : Prop :=
  ∃ p q, a.place = some p ∧ b.place = some q ∧
    (p.side < q.side ∨ p.side = q.side ∧ p.num * q.den ≤ q.num * p.den)

def ordered (a : Number) : Bool :=
  a.place.isSome

theorem atMost_iff {a b : Number} : AtMost a b ↔ ordered a ∧ ordered b ∧ b.lt a = false := by
  unfold AtMost ordered Number.lt
  cases a.place with
  | none => simp
  | some p =>
      cases b.place with
      | none => simp
      | some q =>
          simp only [Option.some.injEq, exists_eq_left', exists_and_left, Option.isSome_some,
            true_and, Place.lt, Bool.or_eq_false_iff, decide_eq_false_iff_not,
            Bool.and_eq_false_iff]
          omega

theorem ordered_int (n : Int) : ordered (.int n) := rfl

end Order

section Sound

def HasType (type : VarType) (value : Value) : Prop :=
  match type with
  | .int => ∃ n, value = .int n
  | .float => ∃ x, value = .float x
  | .bool => ∃ b, value = .bool b
  | .string | .enum => (∃ text, value = .str text) ∨ ∃ units, value = .surrogates units

def numberOf : Value → Option Number
  | .int n => some (.int n)
  | .float x => some (.float x)
  | _ => none

def WithinRange (range : Option (Number × Number)) (value : Value) : Prop :=
  ∀ lo hi, range = some (lo, hi) → ∃ x, numberOf value = some x ∧ AtMost lo x ∧ AtMost x hi

def Encodable (value : Value) : Prop :=
  (Msgpack.packb value).isSome

-- What a variable promises of a value.
structure Valid (v : VarFields) (value : Value) : Prop where
  hasType : HasType v.type value
  withinRange : WithinRange v.range value
  listed : v.type = .enum → ∃ text ∈ v.values.getD [], value = .str text

def CoerceError.isCatalogError : CoerceError → Bool
  | .python _ => false
  | _ => true

def SetOutcome.Clean (v : VarFields) : SetOutcome → Prop
  | .refused => True
  | .crashed => False
  | .written body => ∃ value, Msgpack.packb value = some body ∧ Valid v value

-- What is returned is valid and can be written, and nothing but a catalog error is raised.
structure Coerces (v : VarFields) (raw : Argument) (name : Text) : Prop where
  returns : ∀ value, coerceArgument v raw name = .ok value → Valid v value ∧ Encodable value
  raises : ∀ e, coerceArgument v raw name = .error e → e.isCatalogError
  sets : (setArgument v raw name).Clean v

variable {v : VarFields} {raw : Argument} {name : Text} {value : Value}

theorem coerces_of_ok (h : coerceArgument v raw name = .ok value) :
    Coerces v raw name ↔ Valid v value ∧ Encodable value := by
  constructor
  · intro hcoerces
    exact hcoerces.returns value h
  · rintro ⟨hvalid, hencodable⟩
    refine ⟨?_, ?_, ?_⟩
    · intro other hother
      obtain rfl := Except.ok.inj (h.symm.trans hother)
      exact ⟨hvalid, hencodable⟩
    · intro e he
      rw [h] at he
      nomatch he
    · obtain ⟨body, hbody⟩ := Option.isSome_iff_exists.mp hencodable
      unfold setArgument
      rw [h]
      dsimp only
      rw [hbody]
      exact ⟨value, hbody, hvalid⟩

theorem coerces_of_error {e : CoerceError} (h : coerceArgument v raw name = .error e) :
    Coerces v raw name ↔ e.isCatalogError := by
  constructor
  · intro hcoerces
    exact hcoerces.raises e h
  · intro hcatalog
    refine ⟨?_, ?_, ?_⟩
    · intro value hvalue
      rw [h] at hvalue
      nomatch hvalue
    · intro other hother
      obtain rfl := Except.error.inj (h.symm.trans hother)
      exact hcatalog
    · unfold setArgument
      rw [h]
      cases e with
      | python exception => nomatch hcatalog
      | catalog e => exact trivial
      | unread type name units => exact trivial

theorem isSome_ite {α : Type} {p : Prop} [Decidable p] {x : α} {other : Option α} :
    (if p then some x else other).isSome ↔ p ∨ other.isSome := by
  split_ifs with h
  · simp [h]
  · simp [h]

theorem encodable_int {n : Int} : Encodable (.int n) ↔ -2 ^ 63 ≤ n ∧ n < 2 ^ 64 := by
  have hencode : Msgpack.packb (.int n) = Msgpack.encodeInt n := rfl
  unfold Encodable
  rw [hencode]
  unfold Msgpack.encodeInt
  by_cases hlow : n < -2 ^ 63
  · rw [if_pos hlow]
    simp only [Option.isSome_none, Bool.false_eq_true, false_iff]
    omega
  · rw [if_neg hlow]
    simp only [isSome_ite, Option.isSome_none, Bool.false_eq_true, or_false]
    omega

theorem encodable_str {text : Text} : Encodable (.str text) ↔ (utf8 text).length < 2 ^ 32 := by
  have hencode : Msgpack.packb (.str text) =
    (Msgpack.strHeader (utf8 text).length).map (· ++ utf8 text) := rfl
  unfold Encodable
  rw [hencode, Option.isSome_map]
  unfold Msgpack.strHeader
  simp only [isSome_ite, Option.isSome_none, Bool.false_eq_true, or_false]
  omega

end Sound

section Condition

-- A number of the wire's integers, or any float.
def Packs : Number → Prop
  | .int n => -2 ^ 63 ≤ n ∧ n < 2 ^ 64
  | .float _ => True

-- A number that is refused has bounds that can be written out, and one that is not refused is
-- none the comparisons pass over and can be packed.
def NumberFits (range : Option (Number × Number)) (x : Number) : Prop :=
  match range with
  | none => Packs x
  | some (lo, hi) =>
      if x.lt lo ∨ hi.lt x then printable lo ∧ printable hi
      else ordered lo ∧ ordered x ∧ ordered hi ∧ Packs x

def Fits (v : VarFields) (raw : Argument) : Prop :=
  match v.type, raw with
  | .int, .text raw => ∀ n, parseInt raw = some n → NumberFits v.range (.int n)
  | .float, .text raw => ∀ x, parseFloat raw = some x → NumberFits v.range (.float x)
  | .enum, .text raw => raw ∈ v.values.getD [] → (utf8 raw).length < 2 ^ 32
  | .string, .text raw => (utf8 raw).length < 2 ^ 32
  | .string, .undecodable _ => False
  | _, _ => True

variable {v : VarFields} {raw : Argument} {name : Text} {value : Value}

theorem checks_ok (h : crossFieldChecks v = .ok ()) :
    checkRangeField v = .ok () ∧ checkValuesField v = .ok () := by
  unfold crossFieldChecks at h
  split_ifs at h with horigins
  · nomatch h
  · cases hrange : checkRangeField v with
    | error e =>
        rw [hrange] at h
        nomatch h
    | ok _ =>
        cases hvalues : checkValuesField v with
        | error e =>
            rw [hrange, hvalues] at h
            nomatch h
        | ok _ => exact ⟨rfl, rfl⟩

theorem range_of_accepted (h : crossFieldChecks v = .ok ()) (hint : v.type ≠ .int)
    (hfloat : v.type ≠ .float) : v.range = none := by
  have hrange := (checks_ok h).1
  unfold checkRangeField at hrange
  cases hr : v.range with
  | none => rfl
  | some bounds =>
      rw [hr] at hrange
      dsimp only at hrange
      rw [if_pos ⟨hint, hfloat⟩] at hrange
      nomatch hrange

theorem values_of_accepted (h : crossFieldChecks v = .ok ()) (henum : v.type = .enum) :
    ∃ values, v.values = some values := by
  have hvalues := (checks_ok h).2
  unfold checkValuesField at hvalues
  cases hv : v.values with
  | none =>
      rw [henum, hv] at hvalues
      nomatch hvalues
  | some values => exact ⟨values, rfl⟩

theorem withinRange_some {lo hi x : Number} (hnumber : numberOf value = some x) :
    WithinRange (some (lo, hi)) value ↔ AtMost lo x ∧ AtMost x hi := by
  constructor
  · intro h
    obtain ⟨y, hy, hwithin⟩ := h lo hi rfl
    obtain rfl := Option.some.inj (hnumber.symm.trans hy)
    exact hwithin
  · intro h lo' hi' hbounds
    obtain ⟨rfl, rfl⟩ := Prod.mk.inj (Option.some.inj hbounds)
    exact ⟨x, hnumber, h⟩

theorem coerces_number {x : Number} (hprintable : printable x)
    (h : coerceArgument v raw name = (checkBounds v.range name x).map fun _ => value)
    (hnumber : numberOf value = some x) (htype : HasType v.type value) (henum : v.type ≠ .enum)
    (hpacks : Encodable value ↔ Packs x) : Coerces v raw name ↔ NumberFits v.range x := by
  have hvalid : Valid v value ↔ WithinRange v.range value :=
    ⟨fun hvalid => hvalid.withinRange, fun hrange => ⟨htype, hrange, fun h => absurd h henum⟩⟩
  unfold checkBounds at h
  unfold NumberFits
  cases hrange : v.range with
  | none =>
      rw [hrange] at h hvalid
      rw [coerces_of_ok h, hvalid, hpacks]
      have hany : WithinRange none value := fun lo hi hnone => nomatch hnone
      exact and_iff_right hany
  | some bounds =>
      obtain ⟨lo, hi⟩ := bounds
      rw [hrange] at h hvalid
      dsimp only at h ⊢
      by_cases hout : x.lt lo ∨ hi.lt x
      · rw [if_pos hout] at h ⊢
        rw [coerces_of_error h]
        unfold rangeError
        split_ifs with hall
        · simpa [CoerceError.isCatalogError] using hall.2
        · simpa [CoerceError.isCatalogError, hprintable] using hall
      · rw [if_neg hout] at h ⊢
        rw [coerces_of_ok h, hvalid, withinRange_some hnumber, hpacks, atMost_iff, atMost_iff]
        simp only [not_or, Bool.not_eq_true] at hout
        tauto

theorem printable_of_parseInt {text : Text} {n : Int} (h : parseInt text = some n) :
    printable (.int n) := by
  have hdigits := intDigits_of_parseInt h
  unfold Json.intDigits at hdigits
  split_ifs at hdigits with hshort
  · simpa [printable] using hshort

theorem coerces_int {text : Text} (htype : v.type = .int) :
    Coerces v (.text text) name ↔ ∀ n, parseInt text = some n → NumberFits v.range (.int n) := by
  have hcoerce : coerceArgument v (.text text) name = coerceText v text name := rfl
  unfold coerceText at hcoerce
  rw [htype] at hcoerce
  cases hparse : parseInt text with
  | none =>
      rw [hparse] at hcoerce
      simp [coerces_of_error hcoerce, CoerceError.isCatalogError]
  | some n =>
      rw [hparse] at hcoerce
      have hnumber := coerces_number (printable_of_parseInt hparse) hcoerce rfl
        (htype ▸ ⟨n, rfl⟩) (by simp [htype]) encodable_int
      simpa using hnumber

theorem coerces_float {text : Text} (htype : v.type = .float) :
    Coerces v (.text text) name ↔
      ∀ x, parseFloat text = some x → NumberFits v.range (.float x) := by
  have hcoerce : coerceArgument v (.text text) name = coerceText v text name := rfl
  unfold coerceText at hcoerce
  rw [htype] at hcoerce
  cases hparse : parseFloat text with
  | none =>
      rw [hparse] at hcoerce
      simp [coerces_of_error hcoerce, CoerceError.isCatalogError]
  | some x =>
      rw [hparse] at hcoerce
      have hpacks : Encodable (.float x) ↔ Packs (.float x) := ⟨fun _ => trivial, fun _ => rfl⟩
      have hnumber := coerces_number rfl hcoerce rfl (htype ▸ ⟨x, rfl⟩) (by simp [htype]) hpacks
      simpa using hnumber

theorem coerces_bool {text : Text} (htype : v.type = .bool) (hrange : v.range = none) :
    Coerces v (.text text) name := by
  have hvalid (b : Bool) : Valid v (.bool b) ∧ Encodable (.bool b) := by
    refine ⟨⟨htype ▸ ⟨b, rfl⟩, ?_, fun henum => ?_⟩, ?_⟩
    · intro lo hi hbounds
      rw [hrange] at hbounds
      nomatch hbounds
    · rw [htype] at henum
      nomatch henum
    · cases b with
      | true => rfl
      | false => rfl
  have hcoerce : coerceArgument v (.text text) name = coerceText v text name := rfl
  unfold coerceText at hcoerce
  rw [htype] at hcoerce
  dsimp only at hcoerce
  split_ifs at hcoerce with htrue hfalse
  · exact (coerces_of_ok hcoerce).mpr (hvalid true)
  · exact (coerces_of_ok hcoerce).mpr (hvalid false)
  · exact (coerces_of_error hcoerce).mpr rfl

theorem valid_str {text : Text} (htype : v.type = .string ∨ v.type = .enum)
    (hrange : v.range = none) (hlisted : v.type = .enum → text ∈ v.values.getD []) : Valid v (.str text) := by
  refine ⟨?_, ?_, fun henum => ⟨text, hlisted henum, rfl⟩⟩
  · rcases htype with htype | htype
    · exact htype ▸ .inl ⟨text, rfl⟩
    · exact htype ▸ .inl ⟨text, rfl⟩
  · intro lo hi hbounds
    rw [hrange] at hbounds
    nomatch hbounds

theorem coerces_enum {text : Text} {values : List Text} (htype : v.type = .enum)
    (hrange : v.range = none) (hvalues : v.values = some values) :
    Coerces v (.text text) name ↔ (text ∈ values → (utf8 text).length < 2 ^ 32) := by
  have hcoerce : coerceArgument v (.text text) name = coerceText v text name := rfl
  unfold coerceText at hcoerce
  rw [htype, hvalues] at hcoerce
  dsimp only at hcoerce
  by_cases hlisted : text ∈ values
  · rw [if_pos hlisted] at hcoerce
    have hvalid : Valid v (.str text) := valid_str (.inr htype) hrange fun _ => by
      rw [hvalues]
      exact hlisted
    rw [coerces_of_ok hcoerce, and_iff_right hvalid, encodable_str]
    exact (imp_iff_right hlisted).symm
  · rw [if_neg hlisted] at hcoerce
    rw [coerces_of_error hcoerce]
    simp [CoerceError.isCatalogError, hlisted]

theorem coerces_string {text : Text} (htype : v.type = .string) (hrange : v.range = none) :
    Coerces v (.text text) name ↔ (utf8 text).length < 2 ^ 32 := by
  have hcoerce : coerceArgument v (.text text) name = coerceText v text name := rfl
  unfold coerceText at hcoerce
  rw [htype] at hcoerce
  have hvalid : Valid v (.str text) := valid_str (.inl htype) hrange fun henum => by
    rw [htype] at henum
    nomatch henum
  rw [coerces_of_ok hcoerce, and_iff_right hvalid, encodable_str]

theorem coerces_undecodable {units : List Nat} (h : crossFieldChecks v = .ok ()) :
    Coerces v (.undecodable units) name ↔ v.type ≠ .string := by
  by_cases hstring : v.type = .string
  · have hcoerce : coerceArgument v (.undecodable units) name = .ok (.surrogates units) := by
      unfold coerceArgument
      rw [hstring]
    rw [coerces_of_ok hcoerce]
    simp only [hstring, ne_eq, not_true_eq_false, iff_false, not_and]
    intro _ hencodable
    nomatch hencodable
  · have hcoerce : coerceArgument v (.undecodable units) name =
        .error (.unread v.type name units) := by
      unfold coerceArgument
      cases htype : v.type with
      | string => exact absurd htype hstring
      | enum =>
          obtain ⟨values, hvalues⟩ := values_of_accepted h htype
          rw [hvalues]
      | int => rfl
      | float => rfl
      | bool => rfl
    rw [coerces_of_error hcoerce]
    simp [CoerceError.isCatalogError, hstring]

-- A word is coerced well exactly when a number it spells is one the bounds can be compared and
-- the packer can write, or a bound that refuses it can be printed; and a string is short enough
-- and no stray bytes.
theorem coerces_iff (v : SchemaVar) (raw : Argument) (name : Text) :
    Coerces v.toVarFields raw name ↔ Fits v.toVarFields raw := by
  have hrange := @range_of_accepted v.toVarFields v.accepted
  unfold Fits
  cases raw with
  | undecodable units =>
      rw [coerces_undecodable v.accepted]
      cases htype : v.type with
      | string => simp
      | int => simp
      | float => simp
      | bool => simp
      | enum => simp
  | text text =>
      cases htype : v.type with
      | int => exact coerces_int htype
      | float => exact coerces_float htype
      | bool => simpa using coerces_bool htype (hrange (by simp [htype]) (by simp [htype]))
      | enum =>
          obtain ⟨values, hvalues⟩ := values_of_accepted v.accepted htype
          have hiff := @coerces_enum v.toVarFields name text values htype
            (hrange (by simp [htype]) (by simp [htype])) hvalues
          simpa [hvalues] using hiff
      | string => exact coerces_string htype (hrange (by simp [htype]) (by simp [htype]))

def boundedFraction : VarFields where
  type := .float
  default := none
  defaultPerDevice := false
  defaultPerPlatform := false
  range := some (.int 0, .int 1)
  values := none

-- What is no number passes every bound.
theorem nan_passes_range : crossFieldChecks boundedFraction = .ok () ∧
    ¬ Coerces boundedFraction (.text "nan".toList) "gain".toList := by
  have hcoerce : coerceArgument boundedFraction (.text "nan".toList) "gain".toList =
      .ok (.float (.ofSignAndBits false (Binary64.infinityBits + 2 ^ 51))) := by rfl
  have hplace : Number.place (.float (.ofSignAndBits false (Binary64.infinityBits + 2 ^ 51))) =
      none := by rfl
  refine ⟨rfl, ?_⟩
  intro hcoerces
  obtain ⟨x, hx, -, p, q, hp, -, -⟩ :=
    ((coerces_of_ok hcoerce).mp hcoerces).1.withinRange (.int 0) (.int 1) rfl
  obtain rfl := Option.some.inj hx
  rw [hplace] at hp
  nomatch hp

end Condition

end Stra2us.Client
