import Stra2us.Foundation.FloatText
import Stra2us.Foundation.JsonDocument
import Stra2us.Foundation.Numerals

namespace Stra2us.Foundation

-- What an interpreter brings along: how deep it recurses into a document and into a container
-- it writes out, and which characters it takes for printable.
structure Interpreter where
  jsonDepth : Nat
  jsonDepth_pos : 0 < jsonDepth
  reprDepth : Nat
  printable : Nat → Bool

namespace Interpreter

variable (py : Interpreter)

def hexDigits : Nat → Nat → Text
  | 0, _ => []
  | count + 1, n => hexDigits count (n / 16) ++ [Json.hexLower (n % 16)]

def reprUnit (quote unit : Nat) : Text :=
  if unit = quote ∨ unit = 92 then ['\\', Char.ofNat unit]
  else if unit = 9 then ['\\', 't']
  else if unit = 10 then ['\\', 'n']
  else if unit = 13 then ['\\', 'r']
  else if unit < 32 ∨ unit = 127 then '\\' :: 'x' :: hexDigits 2 unit
  else if unit < 127 ∨ Json.isSurrogate unit = false ∧ py.printable unit then [Char.ofNat unit]
  else if unit ≤ 0xff then '\\' :: 'x' :: hexDigits 2 unit
  else if unit ≤ 0xffff then '\\' :: 'u' :: hexDigits 4 unit
  else '\\' :: 'U' :: hexDigits 8 unit

-- Single quotes, unless there are some inside and no double ones.
def reprUnits (units : List Nat) : Text :=
  let quote := if 39 ∈ units ∧ 34 ∉ units then 34 else 39
  Char.ofNat quote :: (units.flatMap (py.reprUnit quote) ++ [Char.ofNat quote])

-- Of what a document can hold.
def repr : Nat → Value → Option Text
  | _, .none => some "None".toList
  | _, .bool b => some (if b then "True".toList else "False".toList)
  | _, .int n => (Json.intDigits n).toOption
  | _, .float x => some x.text
  | _, .str text => some (py.reprUnits (text.map Char.toNat))
  | _, .surrogates units => some (py.reprUnits units)
  | depth + 1, .list items => do
      let parts ← items.mapM (repr depth)
      some ('[' :: (Json.joinWith ", ".toList parts ++ [']']))
  | depth + 1, .dict pairs => do
      let parts ← pairs.mapM fun pair => do
        let name ← repr depth pair.1
        let body ← repr depth pair.2
        some (name ++ ": ".toList ++ body)
      some ('{' :: (Json.joinWith ", ".toList parts ++ ['}']))
  | _, _ => none

-- A value inside an f-string that is encoded afterwards, which no lone surrogate is.
def format : Value → Option Text
  | .str text => some text
  | .surrogates _ => none
  | value => py.repr py.reprDepth value

-- `int`, with the fraction of a float cut off.
def intOf : Value → Option Int
  | .bool b => some (if b then 1 else 0)
  | .int n => some n
  | .float x =>
      if x.isFinite then
        let whole : Int := x.toRatio.1 / x.toRatio.2
        some (if x.isNegative then -whole else whole)
      else none
  | .str text => parseInt text
  | _ => none

section Instants

variable {py : Interpreter} {value : Value} {text : Text} {n : Int}

@[simp] theorem format_str (text : Text) : py.format (.str text) = some text := rfl

theorem repr_bool (depth : Nat) (b : Bool) :
    py.repr depth (.bool b) = some (if b then "True".toList else "False".toList) := by
  cases depth with
  | zero => rfl
  | succ depth => rfl

theorem repr_float (depth : Nat) (x : Binary64) : py.repr depth (.float x) = some x.text := by
  cases depth with
  | zero => rfl
  | succ depth => rfl

theorem repr_int (depth : Nat) (n : Int) :
    py.repr depth (.int n) = (Json.intDigits n).toOption := by
  cases depth with
  | zero => rfl
  | succ depth => rfl

@[simp] theorem format_bool (b : Bool) :
    py.format (.bool b) = some (if b then "True".toList else "False".toList) :=
  repr_bool _ b

@[simp] theorem format_float (x : Binary64) : py.format (.float x) = some x.text :=
  repr_float _ x

theorem format_int_iff : py.format (.int n) = some text ↔
    (natText n.natAbs).length ≤ maxIntDigits ∧ intText n = text := by
  have hformat : py.format (.int n) = (Json.intDigits n).toOption := repr_int _ n
  rw [hformat, Json.intDigits]
  split_ifs with h
  · simp [Except.toOption, h]
  · simp [Except.toOption, h]

theorem intOf_float {x : Binary64} (h : intOf (.float x) = some n) : x.isFinite := by
  by_contra hinfinite
  have hnone : intOf (.float x) = none := if_neg hinfinite
  rw [hnone] at h
  nomatch h

theorem colon_notMem_of_parseDigits {m : Nat} (h : parseDigits text = some m) : ':' ∉ text := by
  intro hcolon
  unfold parseDigits at h
  split_ifs at h with hrun
  have hkept : ':' ∈ text.filter (· ≠ '_') := List.mem_filter.mpr ⟨hcolon, by decide⟩
  exact absurd (isDigit_of_run hrun.1 ':' hkept) (by decide)

theorem exists_parseDigits {f : Int → Int}
    (h : Option.map f (do let m ← parseDigits text; pure (m : Int)) = some n) :
    ∃ m, parseDigits text = some m := by
  obtain ⟨_, hread, -⟩ := Option.map_eq_some_iff.mp h
  obtain ⟨m, hm, -⟩ := Option.bind_eq_some_iff.mp hread
  exact ⟨m, hm⟩

-- A colon stays one when digits of any script are read, and no number has one.
theorem colon_notMem_of_parseInt (h : parseInt text = some n) : ':' ∉ text := by
  intro hcolon
  have hmapped : ':' ∈ text.map asciiNumeral := List.mem_map.mpr ⟨':', hcolon, by decide⟩
  have hnumeral : ':' ∈ numeralText text := mem_trim hmapped (by decide)
  unfold parseInt at h
  split at h
  · rename_i digits hdigits
    obtain ⟨m, hm⟩ := exists_parseDigits h
    rw [hdigits] at hnumeral
    exact colon_notMem_of_parseDigits hm (by simpa using hnumeral)
  · rename_i digits hdigits
    obtain ⟨m, hm⟩ := exists_parseDigits h
    rw [hdigits] at hnumeral
    exact colon_notMem_of_parseDigits hm (by simpa using hnumeral)
  · obtain ⟨m, hm⟩ := exists_parseDigits h
    exact colon_notMem_of_parseDigits hm hnumeral

theorem colon_notMem_floatLiteral {x : Binary64} (h : Json.FloatLiteral text x) : ':' ∉ text := by
  intro hcolon
  cases h with
  | numeral x =>
      have hcases := x.mem_text hcolon
      revert hcases
      decide
  | nan => exact absurd hcolon (by decide)
  | infinity negative => exact absurd hcolon (by cases negative <;> decide)

theorem notNan_of_isFinite {x : Binary64} (h : x.isFinite) : x.isNan = false := by
  unfold Binary64.isFinite at h
  unfold Binary64.isNan
  simp only [decide_eq_true_eq, decide_eq_false_iff_not] at h ⊢
  omega

theorem colon_notMem_format (h : intOf value = some n) (hformat : py.format value = some text) :
    ':' ∉ text := by
  cases value with
  | bool b =>
      rw [format_bool] at hformat
      cases b with
      | true => exact Option.some.inj hformat ▸ (by decide)
      | false => exact Option.some.inj hformat ▸ (by decide)
  | int k =>
      obtain ⟨-, rfl⟩ := format_int_iff.mp hformat
      intro hcolon
      rcases mem_intText hcolon with hminus | hdigit
      · exact absurd hminus (by decide)
      · exact absurd hdigit (by decide)
  | float x =>
      have hfinite := intOf_float h
      have hliteral := Json.floatLiteral_text x hfinite (notNan_of_isFinite hfinite)
      rw [format_float] at hformat
      exact Option.some.inj hformat ▸ colon_notMem_floatLiteral hliteral
  | str raw => exact Option.some.inj hformat ▸ colon_notMem_of_parseInt h
  | _ => exact absurd h (by simp [intOf])

-- Of the values that are a number, those written as plain digits are that number.
theorem intOf_of_natText {n : Int} {m : Nat} (h : intOf value = some n)
    (hm : (natText m).length ≤ maxIntDigits) (hformat : py.format value = some (natText m)) :
    n = m := by
  cases value with
  | bool b =>
      have hdigits : ∀ c ∈ natText m, c.isDigit := fun c hc => isDigit_of_mem_natText hc
      rw [format_bool] at hformat
      rw [← Option.some.inj hformat] at hdigits
      cases b with
      | true => exact absurd (hdigits 'T' (by decide)) (by decide)
      | false => exact absurd (hdigits 'F' (by decide)) (by decide)
  | int k =>
      have hk : k = m := intText_injective (format_int_iff.mp hformat).2
      exact (Option.some.inj h).symm.trans hk
  | float x =>
      have hfinite := intOf_float h
      have hliteral := Json.floatLiteral_text x hfinite (notNan_of_isFinite hfinite)
      rw [format_float] at hformat
      rw [Option.some.inj hformat] at hliteral
      have hfloat : Json.loads 0 (natText m) = .ok (.float x) :=
        Json.loads_float_iff.mpr ⟨_, ⟨[], [], by simp, by simp, by simp⟩, hliteral⟩
      have hwhole : Json.IntLiteral (intText m) m := Json.intLiteral_intText hm
      have hint : Json.loads 0 (natText m) = .ok (.int m) :=
        Json.loads_int_iff.mpr ⟨_, ⟨[], [], by simp, by simp, by simp [intText]⟩, hwhole⟩
      rw [hfloat] at hint
      cases hint
  | str raw =>
      have hraw : raw = intText m := Option.some.inj hformat
      have hread : parseInt raw = some n := h
      rw [hraw, parseInt_intText m hm] at hread
      exact (Option.some.inj hread).symm
  | _ => exact absurd h (by simp [intOf])

end Instants

end Interpreter

end Stra2us.Foundation
