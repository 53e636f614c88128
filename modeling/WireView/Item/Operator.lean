import WireView.Item.Float
import WireView.Item.Basic

/-!
# Reduction operators

A fold combines an incoming item with the stored one: `stored := f stored incoming`. An
operator table says, for each named operator, which function the items of one type have for it.
The built-in tables give

* integers and characters sum, product, min, max, and the bitwise and, or, xor, where sum and
  product wrap around and the order of a character is that of its code unit;
* floats sum, product, min and max;
* truth values and, or, xor, and the two logical operators.

A caller may define a function for any operator of any type, in place of the built-in one or
where there is none.
-/

namespace WireView

inductive Operator where
  | sum
  | product
  | min
  | max
  | and
  | or
  | xor
  | logicalAnd
  | logicalOr
  deriving DecidableEq

namespace Operator

def all : List Operator := [sum, product, min, max, and, or, xor, logicalAnd, logicalOr]

def name : Operator → String
  | sum => "sum"
  | product => "product"
  | min => "min"
  | max => "max"
  | and => "and"
  | or => "or"
  | xor => "xor"
  | logicalAnd => "logical_and"
  | logicalOr => "logical_or"

def ofName? (s : String) : Option Operator := all.find? fun op => op.name = s

theorem mem_all (op : Operator) : op ∈ all := by cases op <;> decide

end Operator

/-- A named function that combines a stored value with an incoming one. -/
structure Fold (α : Type) where
  name : String
  apply : α → α → α

namespace Fold

variable {α : Type}

def first : Fold α := ⟨"first", fun stored _ => stored⟩

def second : Fold α := ⟨"second", fun _ incoming => incoming⟩

def text (f : Fold α) : String := "ReduceOp \x7b name: \"" ++ f.name ++ "\" \x7d"

end Fold

def signedOperator {w : Nat} : Operator → Option (BitVec w → BitVec w → BitVec w)
  | .sum => some (· + ·)
  | .product => some (· * ·)
  | .min => some fun x y => if x.sle y then x else y
  | .max => some fun x y => if x.sle y then y else x
  | .and => some (· &&& ·)
  | .or => some (· ||| ·)
  | .xor => some (· ^^^ ·)
  | .logicalAnd | .logicalOr => none

/-- The operators of unsigned integers, which differ from the signed ones in their order only. -/
def unsignedOperator {w : Nat} : Operator → Option (BitVec w → BitVec w → BitVec w)
  | .min => some fun x y => if x.ule y then x else y
  | .max => some fun x y => if x.ule y then y else x
  | op => signedOperator op

def truthOperator : Operator → Option (BitVec 1 → BitVec 1 → BitVec 1)
  | .and | .logicalAnd => some (· &&& ·)
  | .or | .logicalOr => some (· ||| ·)
  | .xor => some (· ^^^ ·)
  | .sum | .product | .min | .max => none

def floatOperator {w : Nat} (f : FloatFormat w) (sum product : BitVec w → BitVec w → BitVec w) :
    Operator → Option (BitVec w → BitVec w → BitVec w)
  | .sum => some sum
  | .product => some product
  | .min => some f.min
  | .max => some f.max
  | .and | .or | .xor | .logicalAnd | .logicalOr => none

/-- The functions that the items of one type have for the operators. -/
structure OperatorTable (t : ItemKind) where
  entry : Operator → Option (Item t → Item t → Item t)

namespace OperatorTable

variable {t : ItemKind}

def builtin : (t : ItemKind) → OperatorTable t
  | .bool => ⟨truthOperator⟩
  | .int8 => ⟨signedOperator⟩
  | .int16 => ⟨signedOperator⟩
  | .int32 => ⟨signedOperator⟩
  | .int64 => ⟨signedOperator⟩
  | .float32 => ⟨floatOperator .binary32 (FloatFormat.lift32 (· + ·)) (FloatFormat.lift32 (· * ·))⟩
  | .float64 => ⟨floatOperator .binary64 (FloatFormat.lift64 (· + ·)) (FloatFormat.lift64 (· * ·))⟩
  | .char => ⟨unsignedOperator⟩

def get? (table : OperatorTable t) (op : Operator) : Option (Fold (Item t)) :=
  (table.entry op).map (Fold.mk op.name)

def defines (table : OperatorTable t) (op : Operator) : Bool := (table.entry op).isSome

def defined (table : OperatorTable t) : List Operator := Operator.all.filter table.defines

/-- Makes `f` the function of `op`, whatever it was before. -/
def define (table : OperatorTable t) (op : Operator) (f : Item t → Item t → Item t) :
    OperatorTable t :=
  ⟨fun o => if o = op then some f else table.entry o⟩

def text (table : OperatorTable t) : String :=
  let quoted := table.defined.map fun op => "\"" ++ op.name ++ "\""
  "OpTable \x7b ops: [" ++ ", ".intercalate quoted ++ "] \x7d"

end OperatorTable

abbrev Operators := PerKind OperatorTable

def Operators.builtin : Operators := .tabulate OperatorTable.builtin

def Operators.define (operators : Operators) (t : ItemKind) (op : Operator)
    (f : Item t → Item t → Item t) : Operators :=
  operators.set t ((operators.get t).define op f)

namespace Item

variable {t : ItemKind}

/-- The stored item less the incoming one, modulo the range of the type; of truth values, the
stored one where the incoming one is false. -/
def difference (stored incoming : Item t) : Item t :=
  match t with
  | .bool => stored &&& ~~~incoming
  | .float32 => FloatFormat.lift32 (· - ·) stored incoming
  | .float64 => FloatFormat.lift64 (· - ·) stored incoming
  | .int8 | .int16 | .int32 | .int64 | .char => stored - incoming

/-- The sum of two squares, modulo the range of the type; of truth values, their disjunction. -/
def sumOfSquares (stored incoming : Item t) : Item t :=
  match t with
  | .bool => stored ||| incoming
  | .float32 => FloatFormat.lift32 (fun x y => x * x + y * y) stored incoming
  | .float64 => FloatFormat.lift64 (fun x y => x * x + y * y) stored incoming
  | .int8 | .int16 | .int32 | .int64 | .char => stored * stored + incoming * incoming

/-- The pattern of a float is no number. Items of the other types are never NaN. -/
def IsNaN (x : Item t) : Prop :=
  match t with
  | .float32 => FloatFormat.binary32.IsNaN x
  | .float64 => FloatFormat.binary64.IsNaN x
  | .bool | .int8 | .int16 | .int32 | .int64 | .char => False

instance (x : Item t) : Decidable x.IsNaN :=
  match t with
  | .float32 => inferInstanceAs (Decidable (FloatFormat.binary32.IsNaN x))
  | .float64 => inferInstanceAs (Decidable (FloatFormat.binary64.IsNaN x))
  | .bool | .int8 | .int16 | .int32 | .int64 | .char => inferInstanceAs (Decidable False)

end Item

example : (OperatorTable.builtin .bool).defined = [.and, .or, .xor, .logicalAnd, .logicalOr] := by
  decide

end WireView
