import Stra2us.Foundation.Binary64

namespace Stra2us.Foundation

namespace Json

-- A malformed document, a number too long to convert and a document nested too deeply
-- fail differently.
inductive Error
  | value
  | digits
  | recursion
deriving DecidableEq, Repr

def isWs (c : Char) : Bool :=
  c = ' ' || c = '\t' || c = '\n' || c = '\r'

def skipWs (text : Text) : Text :=
  text.dropWhile isWs

section Strings

def hexDigit? (c : Char) : Option Nat :=
  if '0' ≤ c ∧ c ≤ '9' then some (c.toNat - 48)
  else if 'a' ≤ c ∧ c ≤ 'f' then some (c.toNat - 87)
  else if 'A' ≤ c ∧ c ≤ 'F' then some (c.toNat - 55)
  else none

def hex4 : Text → Option (Nat × Text)
  | a :: b :: c :: d :: rest => do
      let a ← hexDigit? a
      let b ← hexDigit? b
      let c ← hexDigit? c
      let d ← hexDigit? d
      some (((a * 16 + b) * 16 + c) * 16 + d, rest)
  | _ => none

def isHigh (unit : Nat) : Bool := 0xd800 ≤ unit && unit ≤ 0xdbff

def isLow (unit : Nat) : Bool := 0xdc00 ≤ unit && unit ≤ 0xdfff

def joinPair (high low : Nat) : Nat :=
  0x10000 + (high - 0xd800) * 0x400 + (low - 0xdc00)

-- A high surrogate takes in the escape after it when that is a low one.
def scanEscapedUnit (text : Text) : Option (Nat × Text) := do
  let (unit, rest) ← hex4 text
  if isHigh unit then
    match rest with
    | '\\' :: 'u' :: after =>
        match hex4 after with
        | some (low, rest') => if isLow low then some (joinPair unit low, rest') else some (unit, rest)
        | none => some (unit, rest)
    | _ => some (unit, rest)
  else some (unit, rest)

def simpleEscape (c : Char) : Option Char :=
  match c with
  | '"' => some '"'
  | '\\' => some '\\'
  | '/' => some '/'
  | 'b' => some '\x08'
  | 'f' => some '\x0c'
  | 'n' => some '\n'
  | 'r' => some '\r'
  | 't' => some '\t'
  | _ => none

-- The code points up to the closing quote. Control characters are refused.
def scanUnits : Nat → Text → Except Error (List Nat × Text)
  | 0, _ => .error .value
  | _ + 1, [] => .error .value
  | _ + 1, '"' :: rest => .ok ([], rest)
  | fuel + 1, '\\' :: 'u' :: rest =>
      match scanEscapedUnit rest with
      | none => .error .value
      | some (unit, rest) => do
          let (units, rest) ← scanUnits fuel rest
          .ok (unit :: units, rest)
  | fuel + 1, '\\' :: c :: rest =>
      match simpleEscape c with
      | none => .error .value
      | some plain => do
          let (units, rest) ← scanUnits fuel rest
          .ok (plain.toNat :: units, rest)
  | fuel + 1, c :: rest =>
      if c.toNat < 0x20 ∨ c = '\\' then .error .value
      else do
        let (units, rest) ← scanUnits fuel rest
        .ok (c.toNat :: units, rest)

def isSurrogate (unit : Nat) : Bool := 0xd800 ≤ unit && unit ≤ 0xdfff

def stringOfUnits (units : List Nat) : Value :=
  if units.any isSurrogate then .surrogates units else .str (units.map Char.ofNat)

-- From behind the opening quote.
def scanString (text : Text) : Except Error (Value × Text) := do
  let (units, rest) ← scanUnits (text.length + 1) text
  .ok (stringOfUnits units, rest)

end Strings

section Numbers

def takeDigits (text : Text) : Text × Text :=
  (text.takeWhile Char.isDigit, text.dropWhile Char.isDigit)

def scanWhole : Text → Option (Text × Text)
  | '0' :: rest => some (['0'], rest)
  | c :: rest => if c.isDigit then some (takeDigits (c :: rest)) else none
  | [] => none

def scanFraction (text : Text) : Text × Text :=
  match text with
  | '.' :: rest => if (takeDigits rest).1 = [] then ([], text) else takeDigits rest
  | _ => ([], text)

def digitsNat (digits : Text) : Nat :=
  Nat.ofDigitChars 10 digits 0

def scanExponent (text : Text) : Option Int × Text :=
  let digits (negative : Bool) (rest : Text) : Option Int × Text :=
    if (takeDigits rest).1 = [] then (none, text)
    else
      let n : Int := digitsNat (takeDigits rest).1
      (some (if negative then -n else n), (takeDigits rest).2)
  match text with
  | e :: rest =>
      if e = 'e' ∨ e = 'E' then
        match rest with
        | '+' :: rest => digits false rest
        | '-' :: rest => digits true rest
        | rest => digits false rest
      else (none, text)
  | [] => (none, text)

-- A fraction or an exponent makes it a float.
def scanNumber (negative : Bool) (text : Text) : Except Error (Value × Text) :=
  match scanWhole text with
  | none => .error .value
  | some (whole, rest) =>
      let (fraction, rest) := scanFraction rest
      let (exp10, rest) := scanExponent rest
      if fraction = [] ∧ exp10 = none then
        if whole.length ≤ maxIntDigits then
          .ok (.int (if negative then -(digitsNat whole : Int) else digitsNat whole), rest)
        else .error .digits
      else
        .ok (.float (.ofDecimal negative (digitsNat (whole ++ fraction))
          (exp10.getD 0 - fraction.length)), rest)

end Numbers

section Documents

def sameKey : Value → Value → Bool
  | .str a, .str b => a = b
  | .surrogates a, .surrogates b => a = b
  | _, _ => false

-- A repeated key keeps its first place and takes the later value.
def objectSet (key value : Value) : List (Value × Value) → List (Value × Value)
  | [] => [(key, value)]
  | (name, old) :: rest =>
      if sameKey name key then (name, value) :: rest else (name, old) :: objectSet key value rest

-- After the opening bracket and each comma; the first argument bounds the items.
def scanItems (inner : Text → Except Error (Value × Text)) : Nat → Text → Except Error (List Value × Text)
  | 0, _ => .error .value
  | fuel + 1, text => do
      let (item, rest) ← inner text
      match skipWs rest with
      | ']' :: rest => .ok ([item], rest)
      | ',' :: rest => do
          let (items, rest) ← scanItems inner fuel (skipWs rest)
          .ok (item :: items, rest)
      | _ => .error .value

def scanMembers (inner : Text → Except Error (Value × Text)) :
    Nat → List (Value × Value) → Text → Except Error (List (Value × Value) × Text)
  | 0, _, _ => .error .value
  | fuel + 1, pairs, text =>
      match text with
      | '"' :: rest => do
          let (key, rest) ← scanString rest
          match skipWs rest with
          | ':' :: rest => do
              let (value, rest) ← inner (skipWs rest)
              let pairs := objectSet key value pairs
              match skipWs rest with
              | '}' :: rest => .ok (pairs, rest)
              | ',' :: rest => scanMembers inner fuel pairs (skipWs rest)
              | _ => .error .value
          | _ => .error .value
      | _ => .error .value

def scanArray (inner : Text → Except Error (Value × Text)) (text : Text) : Except Error (Value × Text) :=
  match skipWs text with
  | ']' :: rest => .ok (.list [], rest)
  | text => do
      let (items, rest) ← scanItems inner (text.length + 1) text
      .ok (.list items, rest)

def scanObject (inner : Text → Except Error (Value × Text)) (text : Text) : Except Error (Value × Text) :=
  match skipWs text with
  | '}' :: rest => .ok (.dict [], rest)
  | text => do
      let (pairs, rest) ← scanMembers inner (text.length + 1) [] text
      .ok (.dict pairs, rest)

-- `inner` scans what a container holds and is missing at the recursion limit.
def scanHead (inner : Option (Text → Except Error (Value × Text))) : Text → Except Error (Value × Text)
  | '"' :: rest => scanString rest
  | '{' :: rest =>
      match inner with
      | some inner => scanObject inner rest
      | none => .error .recursion
  | '[' :: rest =>
      match inner with
      | some inner => scanArray inner rest
      | none => .error .recursion
  | 'n' :: 'u' :: 'l' :: 'l' :: rest => .ok (.none, rest)
  | 't' :: 'r' :: 'u' :: 'e' :: rest => .ok (.bool true, rest)
  | 'f' :: 'a' :: 'l' :: 's' :: 'e' :: rest => .ok (.bool false, rest)
  | 'N' :: 'a' :: 'N' :: rest => .ok (.float .nan, rest)
  | 'I' :: 'n' :: 'f' :: 'i' :: 'n' :: 'i' :: 't' :: 'y' :: rest => .ok (.float (.infinity false), rest)
  | '-' :: 'I' :: 'n' :: 'f' :: 'i' :: 'n' :: 'i' :: 't' :: 'y' :: rest =>
      .ok (.float (.infinity true), rest)
  | '-' :: rest => scanNumber true rest
  | text => scanNumber false text

def scanOnce : Nat → Text → Except Error (Value × Text)
  | 0 => scanHead none
  | depth + 1 => scanHead (some (scanOnce depth))

-- Nothing but white space may surround the value.
def loads (depth : Nat) (text : Text) : Except Error Value :=
  match text with
  | '\uFEFF' :: _ => .error .value
  | _ => do
      let (value, rest) ← scanOnce depth (skipWs text)
      if skipWs rest = [] then .ok value else .error .value

end Documents

section Dumps

def hexLower (n : Nat) : Char :=
  if n < 10 then Char.ofNat (48 + n) else Char.ofNat (87 + n)

def escapeUnit (unit : Nat) : Text :=
  ['\\', 'u', hexLower (unit / 4096 % 16), hexLower (unit / 256 % 16), hexLower (unit / 16 % 16),
    hexLower (unit % 16)]

-- Output is ASCII; a code point beyond the basic plane becomes a surrogate pair.
def escapeCodePoint (n : Nat) : Text :=
  if n = 34 then ['\\', '"']
  else if n = 92 then ['\\', '\\']
  else if n = 10 then ['\\', 'n']
  else if n = 13 then ['\\', 'r']
  else if n = 9 then ['\\', 't']
  else if n = 12 then ['\\', 'f']
  else if n = 8 then ['\\', 'b']
  else if 32 ≤ n ∧ n ≤ 126 then [Char.ofNat n]
  else if n < 0x10000 then escapeUnit n
  else
    escapeUnit (0xd800 + (n - 0x10000) / 0x400) ++ escapeUnit (0xdc00 + (n - 0x10000) % 0x400)

def quoteUnits (units : List Nat) : Text :=
  '"' :: (units.flatMap escapeCodePoint ++ ['"'])

def floatText (x : Binary64) : Text :=
  if x.isNan then "NaN".toList
  else if x.isFinite then x.text
  else if x.isNegative then "-Infinity".toList else "Infinity".toList

def joinWith (separator : Text) : List Text → Text
  | [] => []
  | [part] => part
  | part :: rest => part ++ separator ++ joinWith separator rest

def intDigits (n : Int) : Except Error Text :=
  if (natText n.natAbs).length ≤ maxIntDigits then .ok (intText n) else .error .digits

-- Only string keys are needed; what has no JSON form raises.
def dumpsValue : Nat → Value → Except Error Text
  | 0, _ => .error .recursion
  | depth + 1, value =>
      match value with
      | .none => .ok "null".toList
      | .bool true => .ok "true".toList
      | .bool false => .ok "false".toList
      | .int n => intDigits n
      | .float x => .ok (floatText x)
      | .str text => .ok (quoteUnits (text.map Char.toNat))
      | .surrogates units => .ok (quoteUnits units)
      | .list items => do
          let parts ← items.mapM (dumpsValue depth)
          .ok ('[' :: (joinWith ", ".toList parts ++ [']']))
      | .dict pairs => do
          let parts ← pairs.mapM fun (key, value) => do
            let name ←
              match key with
              | .str text => Except.ok (quoteUnits (text.map Char.toNat))
              | .surrogates units => Except.ok (quoteUnits units)
              | _ => Except.error Error.value
            let body ← dumpsValue depth value
            .ok (name ++ ": ".toList ++ body)
          .ok ('{' :: (joinWith ", ".toList parts ++ ['}']))
      | _ => .error .value

end Dumps

end Json

end Stra2us.Foundation
