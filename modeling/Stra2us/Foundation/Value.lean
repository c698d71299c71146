import Stra2us.Foundation.Text

namespace Stra2us.Foundation

-- An IEEE double, as its bits.
structure Binary64 where
  bits : UInt64
deriving DecidableEq, Repr

-- The dynamically typed values that documents are decoded to. A string that holds
-- a lone surrogate is no sequence of characters and stands apart; `foreign` is a
-- scalar of another type (a date, a set), of which only its type and text matter.
inductive Value
  | none
  | bool (b : Bool)
  | int (n : Int)
  | float (x : Binary64)
  | str (text : Text)
  | surrogates (units : List Nat)
  | bytes (data : Bytes)
  | list (items : List Value)
  | dict (pairs : List (Value × Value))
  | ext (code : Nat) (data : Bytes)
  | timestamp (seconds : Int) (nanoseconds : Nat)
  | foreign (type text : Text)
deriving Repr

namespace Value

def isStr : Value → Bool
  | .str _ => true
  | _ => false

-- What counts as true in a condition.
def truthy : Value → Bool
  | .none => false
  | .bool b => b
  | .int n => n ≠ 0
  | .float x => x.bits.toNat % 2 ^ 63 ≠ 0
  | .str text => text ≠ []
  | .surrogates units => units ≠ []
  | .bytes data => data ≠ []
  | .list items => ¬ items.isEmpty
  | .dict pairs => ¬ pairs.isEmpty
  | .ext _ _ => true
  | .timestamp _ _ => true
  | .foreign _ text => text ≠ "set()".toList

-- The value under a string key, where there is one.
def lookup (pairs : List (Value × Value)) (key : Text) : Option Value :=
  match pairs with
  | [] => Option.none
  | (.str name, value) :: rest => if name = key then some value else lookup rest key
  | _ :: rest => lookup rest key

@[simp] theorem lookup_nil (key : Text) : lookup [] key = Option.none := rfl

@[simp] theorem lookup_str_cons (name : Text) (value : Value) (rest : List (Value × Value))
    (key : Text) :
    lookup ((.str name, value) :: rest) key = if name = key then some value else lookup rest key :=
  rfl

end Value

end Stra2us.Foundation
