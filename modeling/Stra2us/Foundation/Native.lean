import Stra2us.Foundation.Binary64
import Stra2us.Foundation.RoundTrip

namespace Stra2us.Foundation

namespace Value

section Same

-- A finite number as a quotient.
def quotient? : Value → Option (Int × Nat)
  | .bool b => some (if b then 1 else 0, 1)
  | .int n => some (n, 1)
  | .float x =>
      if x.isFinite then
        some (if x.isNegative then -(x.toRatio.1 : Int) else x.toRatio.1, x.toRatio.2)
      else Option.none
  | _ => Option.none

-- Numbers are equal across their types; an infinity equals itself, and a NaN nothing.
def sameNumber (a b : Value) : Bool :=
  match a.quotient?, b.quotient? with
  | some (m, d), some (n, e) => m * e = n * d
  | _, _ =>
      match a, b with
      | .float x, .float y => ¬ x.isNan && x = y
      | _, _ => false

def sameScalar : Value → Value → Bool
  | .none, .none => true
  | .str a, .str b => a = b
  | .surrogates a, .surrogates b => a = b
  | .bytes a, .bytes b => a = b
  | .ext code a, .ext other b => code = other && a = b
  | .timestamp seconds a, .timestamp others b => seconds = others && a = b
  | .foreign type a, .foreign other b => type = other && a = b
  | a, b => sameNumber a b

mutual

-- `==`, where the order of a map's fields does not matter.
def same : Value → Value → Bool
  | .list items, .list others => sameItems items others
  | .dict pairs, .dict others => pairs.length = others.length && sameFields pairs others
  | a, b => sameScalar a b

def sameItems : List Value → List Value → Bool
  | [], [] => true
  | a :: items, b :: others => same a b && sameItems items others
  | _, _ => false

def sameFields : List (Value × Value) → List (Value × Value) → Bool
  | [], _ => true
  | (name, value) :: rest, others =>
      (match others.find? fun other => sameScalar other.1 name with
      | some other => same value other.2
      | Option.none => false) && sameFields rest others

end

end Same

end Value

namespace Msgpack

section Native

def isText : Value → Bool
  | .str _ | .surrogates _ => true
  | _ => false

-- What a document is written with: scalars that equal themselves, lists, and maps under strings.
inductive Native : Value → Prop
  | none : Native .none
  | bool (b : Bool) : Native (.bool b)
  | int (n : Int) : Native (.int n)
  | float {x : Binary64} (h : x.isNan = false) : Native (.float x)
  | str (text : Text) : Native (.str text)
  | surrogates (units : List Nat) : Native (.surrogates units)
  | bytes (data : Bytes) : Native (.bytes data)
  | list {items : List Value} (h : ∀ item ∈ items, Native item) : Native (.list items)
  | dict {pairs : List (Value × Value)} (hkeys : ∀ pair ∈ pairs, isText pair.1 = true)
      (hdistinct : (pairs.map Prod.fst).Nodup) (h : ∀ pair ∈ pairs, Native pair.2) :
      Native (.dict pairs)

variable {depth limit : Nat}

theorem readsBack_none : ReadsBack depth .none := by
  apply readsBack_of_head
  intro inner limit bytes rest hencode
  cases limit with
  | zero => cases hencode
  | succ limit =>
      obtain rfl := Option.some.inj hencode
      rfl

theorem readsBack_bool (b : Bool) : ReadsBack depth (.bool b) := by
  apply readsBack_of_head
  intro inner limit bytes rest hencode
  cases limit with
  | zero => cases hencode
  | succ limit =>
      cases b with
      | true =>
          obtain rfl := Option.some.inj hencode
          rfl
      | false =>
          obtain rfl := Option.some.inj hencode
          rfl

theorem readsBack_float (x : Binary64) : ReadsBack depth (.float x) := by
  apply readsBack_of_head
  intro inner limit bytes rest hencode
  cases limit with
  | zero => cases hencode
  | succ limit =>
      obtain rfl := Option.some.inj hencode
      exact decodeHead_float x rest

-- A map that was packed has no key with a surrogate in it.
theorem exists_fieldPairs {pairs : List (Value × Value)} {bodies : List Bytes}
    (hkeys : ∀ pair ∈ pairs, isText pair.1 = true)
    (hbodies : pairs.mapM (fun pair => do
      let key ← encodeValue limit pair.1
      let value ← encodeValue limit pair.2
      some (key ++ value)) = some bodies) :
    ∃ fields, pairs = fieldPairs fields := by
  induction pairs generalizing bodies with
  | nil => exact ⟨[], rfl⟩
  | cons pair pairs ih =>
      rw [List.mapM_cons] at hbodies
      simp only [Option.bind_eq_bind, Option.bind_eq_some_iff, Option.pure_def,
        Option.some.injEq] at hbodies
      obtain ⟨-, ⟨key, hkey, -⟩, others, hothers, -⟩ := hbodies
      obtain ⟨fields, rfl⟩ := ih (fun p hp => hkeys p (List.mem_cons_of_mem _ hp)) hothers
      obtain ⟨name, value⟩ := pair
      have htext := hkeys (name, value) List.mem_cons_self
      cases name with
      | str text => exact ⟨(text, value) :: fields, rfl⟩
      | surrogates units =>
          cases limit with
          | zero => cases hkey
          | succ limit => cases hkey
      | _ => cases htext

-- The reader goes as deep as the packer has gone.
theorem readsFrom_native {value : Value} (h : Native value) (hlimit : limit ≤ depth) :
    ReadsFrom depth limit value := by
  induction h generalizing limit depth with
  | none => exact readsBack_none limit
  | bool b => exact readsBack_bool b limit
  | int n => exact readsBack_int n limit
  | @float x h => exact readsBack_float x limit
  | str text => exact readsBack_str text limit
  | surrogates units =>
      intro bytes rest hencode
      cases limit with
      | zero => cases hencode
      | succ limit => cases hencode
  | bytes data => exact readsBack_bytes data limit
  | list h ih =>
      intro bytes rest hencode
      cases limit with
      | zero => cases hencode
      | succ limit =>
          obtain ⟨depth, rfl⟩ := Nat.exists_eq_add_of_lt (show 0 < depth by omega)
          rw [Nat.zero_add]
          exact readsFrom_list (fun item hitem => ih item hitem (by omega)) bytes rest hencode
  | dict hkeys hdistinct h ih =>
      intro bytes rest hencode
      cases limit with
      | zero => cases hencode
      | succ limit =>
          obtain ⟨depth, rfl⟩ := Nat.exists_eq_add_of_lt (show 0 < depth by omega)
          rw [Nat.zero_add]
          have hbodies := hencode
          simp only [encodeValue, Option.bind_eq_bind, Option.bind_eq_some_iff] at hbodies
          obtain ⟨-, -, bodies, hbodies, -⟩ := hbodies
          obtain ⟨fields, rfl⟩ := exists_fieldPairs hkeys hbodies
          refine readsFrom_dict ?_ (fun field hfield => ?_) bytes rest hencode
          · have hmap : (fieldPairs fields).map Prod.fst =
                (fields.map Prod.fst).map Value.str := by
              simp [fieldPairs]
            rw [hmap] at hdistinct
            exact List.Nodup.of_map _ hdistinct
          · exact ih (.str field.1, field.2) (List.mem_map.mpr ⟨field, hfield, rfl⟩) (by omega)

-- Put together: what is packed is unpacked as what it was.
theorem unpackb_packb {value : Value} {bytes : Bytes} (h : Native value)
    (hpack : packb value = some bytes) : unpackb false bytes = some value := by
  have hlimit : maxEncodeDepth + 1 ≤ maxDecodeDepth := by decide
  have hread := readsFrom_native h hlimit bytes [] hpack
  rw [List.append_nil] at hread
  rw [unpackb, hread]

theorem sameScalar_text {name other : Value} (hname : isText name = true)
    (hother : isText other = true) : Value.sameScalar other name = true ↔ other = name := by
  cases name with
  | str text =>
      cases other with
      | str text' => simp [Value.sameScalar]
      | surrogates units => simp [Value.sameScalar, Value.sameNumber, Value.quotient?]
      | _ => cases hother
  | surrogates units =>
      cases other with
      | str text' => simp [Value.sameScalar, Value.sameNumber, Value.quotient?]
      | surrogates units' => simp [Value.sameScalar]
      | _ => cases hother
  | _ => cases hname

-- Under names of its own, a field is found under its name.
theorem find?_field {pairs : List (Value × Value)} {pair : Value × Value}
    (hkeys : ∀ p ∈ pairs, isText p.1 = true) (hdistinct : (pairs.map Prod.fst).Nodup)
    (hmem : pair ∈ pairs) :
    pairs.find? (fun other => Value.sameScalar other.1 pair.1) = some pair := by
  induction pairs with
  | nil => cases hmem
  | cons first rest ih =>
      have hfirst := sameScalar_text (hkeys pair hmem) (hkeys first List.mem_cons_self)
      rw [List.map_cons, List.nodup_cons] at hdistinct
      cases List.mem_cons.mp hmem with
      | inl hsame =>
          subst hsame
          exact List.find?_cons_of_pos (hfirst.mpr rfl)
      | inr hrest =>
          rw [List.find?_cons_of_neg]
          · exact ih (fun p hp => hkeys p (List.mem_cons_of_mem _ hp)) hdistinct.2 hrest
          · intro hequal
            rw [hfirst] at hequal
            exact hdistinct.1 (hequal ▸ List.mem_map.mpr ⟨pair, hrest, rfl⟩)

theorem sameNumber_self {value : Value} (h : value.quotient?.isSome) :
    Value.sameNumber value value = true := by
  obtain ⟨quotient, hquotient⟩ := Option.isSome_iff_exists.mp h
  unfold Value.sameNumber
  rw [hquotient]
  simp

theorem sameNumber_float {x : Binary64} (h : x.isNan = false) :
    Value.sameNumber (.float x) (.float x) = true := by
  by_cases hfinite : x.isFinite = true
  · exact sameNumber_self (by simp [Value.quotient?, hfinite])
  · simp [Value.sameNumber, Value.quotient?, hfinite, h]

theorem sameItems_self {items : List Value} (h : ∀ item ∈ items, Value.same item item = true) :
    Value.sameItems items items = true := by
  induction items with
  | nil => simp [Value.sameItems]
  | cons item items ih =>
      rw [Value.sameItems, h item List.mem_cons_self,
        ih fun other hother => h other (List.mem_cons_of_mem _ hother)]
      rfl

theorem sameFields_part {pairs part : List (Value × Value)}
    (hkeys : ∀ pair ∈ pairs, isText pair.1 = true) (hdistinct : (pairs.map Prod.fst).Nodup)
    (h : ∀ pair ∈ pairs, Value.same pair.2 pair.2 = true) (hpart : ∀ pair ∈ part, pair ∈ pairs) :
    Value.sameFields part pairs = true := by
  induction part with
  | nil => simp [Value.sameFields]
  | cons pair part ih =>
      have hmem := hpart pair List.mem_cons_self
      have hfound := find?_field hkeys hdistinct hmem
      have hrest := ih fun other hother => hpart other (List.mem_cons_of_mem _ hother)
      obtain ⟨name, value⟩ := pair
      rw [Value.sameFields, hfound, hrest]
      simpa using h (name, value) hmem

-- A document equals itself.
theorem same_self {value : Value} (h : Native value) : Value.same value value = true := by
  induction h with
  | none => simp [Value.same, Value.sameScalar]
  | bool b => simp [Value.same, Value.sameScalar, @sameNumber_self (.bool b) rfl]
  | int n => simp [Value.same, Value.sameScalar, @sameNumber_self (.int n) rfl]
  | float hnan => simp [Value.same, Value.sameScalar, sameNumber_float hnan]
  | str text => simp [Value.same, Value.sameScalar]
  | surrogates units => simp [Value.same, Value.sameScalar]
  | bytes data => simp [Value.same, Value.sameScalar]
  | list h ih =>
      rw [Value.same]
      exact sameItems_self ih
  | dict hkeys hdistinct h ih =>
      rw [Value.same, sameFields_part hkeys hdistinct ih fun pair hpair => hpair]
      simp

end Native

end Msgpack

end Stra2us.Foundation
