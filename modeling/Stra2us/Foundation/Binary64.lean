import Stra2us.Foundation.Value

namespace Stra2us.Foundation

namespace Binary64

def infinityBits : Nat := 2047 * 2 ^ 52

def ofSignAndBits (negative : Bool) (bits : Nat) : Binary64 :=
  ⟨UInt64.ofNat ((if negative then 2 ^ 63 else 0) + bits)⟩

def isNegative (x : Binary64) : Bool :=
  2 ^ 63 ≤ x.bits.toNat

-- The bits without the sign.
def magnitude (x : Binary64) : Nat :=
  x.bits.toNat % 2 ^ 63

def isFinite (x : Binary64) : Bool :=
  x.magnitude < infinityBits

def isNan (x : Binary64) : Bool :=
  infinityBits < x.magnitude

def infinity (negative : Bool) : Binary64 :=
  ofSignAndBits negative infinityBits

def nan : Binary64 :=
  ofSignAndBits false (infinityBits + 2 ^ 51)

-- A finite magnitude is `significand * 2 ^ (exponent - 1074)`.
def significand (x : Binary64) : Nat :=
  if x.magnitude < 2 ^ 52 then x.magnitude else 2 ^ 52 + x.magnitude % 2 ^ 52

def exponent (x : Binary64) : Nat :=
  x.magnitude / 2 ^ 52 - 1

-- The nearest integer to a quotient, the even one of two.
def roundHalfEven (num den : Nat) : Nat :=
  let q := num / den
  let r := num % den
  if 2 * r < den then q
  else if 2 * r > den then q + 1
  else if q % 2 = 0 then q else q + 1

def floorLog2 (num den : Nat) : Int :=
  let guess : Int := Nat.log2 num - Nat.log2 den
  let reached := if 0 ≤ guess then den * 2 ^ guess.toNat ≤ num else den ≤ num * 2 ^ (-guess).toNat
  if reached then guess else guess - 1

-- The quotient in units of `2 ^ (unit - 1074)`; a carry out of the significand runs
-- into the exponent, where the encoding wants it.
def roundBits (num den : Nat) : Nat :=
  if num = 0 then 0
  else
    let unit := (floorLog2 num den - 52 + 1074).toNat
    let q :=
      if 1074 ≤ unit then roundHalfEven num (den * 2 ^ (unit - 1074))
      else roundHalfEven (num * 2 ^ (1074 - unit)) den
    unit * 2 ^ 52 + q

def ofRatio (negative : Bool) (num den : Nat) : Binary64 :=
  ofSignAndBits negative (min (roundBits num den) infinityBits)

-- `digits * 10 ^ exp10`, rounded to nearest.
def ofDecimal (negative : Bool) (digits : Nat) (exp10 : Int) : Binary64 :=
  if 0 ≤ exp10 then ofRatio negative (digits * 10 ^ exp10.toNat) 1
  else ofRatio negative digits (10 ^ (-exp10).toNat)

section Shortest

-- The exact value as a quotient.
def toRatio (x : Binary64) : Nat × Nat :=
  if 1074 ≤ x.exponent then (x.significand * 2 ^ (x.exponent - 1074), 1)
  else (x.significand, 2 ^ (1074 - x.exponent))

def scaled (ratio : Nat × Nat) (exp10 : Int) : Nat × Nat :=
  if 0 ≤ exp10 then (ratio.1, ratio.2 * 10 ^ exp10.toNat)
  else (ratio.1 * 10 ^ (-exp10).toNat, ratio.2)

-- The two neighbours of the value among the multiples of a power of ten, the nearer
-- one first.
def decimalCandidates (x : Binary64) (exp10 : Int) : List Nat :=
  let (num, den) := scaled x.toRatio exp10
  let near := roundHalfEven num den
  let other := if near = num / den then near + 1 else near - 1
  [near, other]

-- Of the decimals with the fewest digits that read back as the value, the nearest.
def shortestFrom (x : Binary64) : Nat → Int → Nat × Int
  | 0, exp10 => (0, exp10)
  | fuel + 1, exp10 =>
      match (decimalCandidates x exp10).find? fun d =>
        ofDecimal x.isNegative d exp10 = x ∧ d ≠ 0 with
      | some d => (d, exp10)
      | none => shortestFrom x fuel (exp10 - 1)

-- No finite double reaches `10 ^ 309`, and each is a multiple of `10 ^ -1074`.
def shortest (x : Binary64) : Nat × Int :=
  shortestFrom x 1400 309

-- The digits of a positive value and where the point stands: `0.d₁d₂… * 10 ^ point`.
def digitsAndPoint (x : Binary64) : Text × Int :=
  let (d, exp10) := x.shortest
  let digits := natText d
  (digits, digits.length + exp10)

def exponentText (exp10 : Int) : Text :=
  let digits := natText exp10.natAbs
  (if exp10 < 0 then ['-'] else ['+']) ++ (if digits.length < 2 then '0' :: digits else digits)

-- The text of a float: positional between `1e-4` and `1e16`, otherwise scientific.
def positiveText (digits : Text) (point : Int) : Text :=
  if -4 < point ∧ point ≤ 16 then
    if point ≤ 0 then "0.".toList ++ List.replicate (-point).toNat '0' ++ digits
    else if digits.length ≤ point.toNat then
      digits ++ List.replicate (point.toNat - digits.length) '0' ++ ".0".toList
    else digits.take point.toNat ++ '.' :: digits.drop point.toNat
  else
    let fraction := if digits.length = 1 then [] else '.' :: digits.drop 1
    digits.take 1 ++ fraction ++ 'e' :: exponentText (point - 1)

def text (x : Binary64) : Text :=
  if x.isNan then "nan".toList
  else
    let sign := if x.isNegative then ['-'] else []
    if ¬ x.isFinite then sign ++ "inf".toList
    else if x.magnitude = 0 then sign ++ "0.0".toList
    else sign ++ positiveText x.digitsAndPoint.1 x.digitsAndPoint.2

end Shortest

end Binary64

end Stra2us.Foundation
