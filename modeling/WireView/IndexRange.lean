/-!
# Index ranges

An index range names the members `lower, lower + stride, …` of an axis, `length` of them. It is
never empty and its stride is positive, so the last member determines the upper bound: a request
whose upper bound falls between two members gives the range that stops at the last one reached.
Every slice, row, column and block of the library is cut out by ranges.
-/

namespace WireView

/-- The longest distance between the bounds of a range: the greatest signed 64-bit number. -/
def maxSpan : Int := 0x7fffffffffffffff

structure IndexRange where
  lower : Int
  stride : Nat
  length : Nat
  stride_pos : 0 < stride
  length_pos : 0 < length
  deriving DecidableEq

namespace IndexRange

def upper (r : IndexRange) : Int := r.lower + ((r.length - 1) * r.stride : Nat)

/-- The range from `lower` in steps of `stride`, not past `upper`. There is none when the stride
is not positive, the bounds are out of order, or they lie further apart than `maxSpan`. -/
def spanning? (lower upper stride : Int) : Option IndexRange :=
  if h : 0 < stride ∧ lower ≤ upper ∧ upper - lower ≤ maxSpan then
    some
      { lower
        stride := stride.toNat
        length := ((upper - lower) / stride).toNat + 1
        stride_pos := by omega
        length_pos := by omega }
  else none

/-- The range `0, 1, …` over a whole axis; an axis of no positions has none. -/
def whole? (extent : Nat) : Option IndexRange :=
  if extent = 0 then none else spanning? 0 (extent - 1) 1

def member? (r : IndexRange) (i : Nat) : Option Int :=
  if i < r.length then some (r.lower + (i * r.stride : Nat)) else none

/-- The position on the axis of a logical index, for a range that starts at or after zero. -/
def position (r : IndexRange) (i : Nat) : Nat := r.lower.toNat + i * r.stride

instance : Membership Int IndexRange where
  mem r v := r.lower ≤ v ∧ v ≤ r.upper ∧ (v - r.lower) % (r.stride : Int) = 0

instance (v : Int) (r : IndexRange) : Decidable (v ∈ r) :=
  inferInstanceAs (Decidable (r.lower ≤ v ∧ v ≤ r.upper ∧ (v - r.lower) % (r.stride : Int) = 0))

/-- Every member is a position of an axis with `extent` positions. -/
def Fits (r : IndexRange) (extent : Nat) : Prop := 0 ≤ r.lower ∧ r.upper < extent

instance (r : IndexRange) (extent : Nat) : Decidable (r.Fits extent) :=
  inferInstanceAs (Decidable (0 ≤ r.lower ∧ r.upper < extent))

def IsContiguous (r : IndexRange) : Prop := r.stride = 1

instance (r : IndexRange) : Decidable r.IsContiguous :=
  inferInstanceAs (Decidable (r.stride = 1))

def text (r : IndexRange) : String :=
  let bounds := toString r.lower ++ ".." ++ toString r.upper
  if r.IsContiguous then bounds else bounds ++ ";" ++ toString r.stride

example : (spanning? 1 6 2).map upper = some 5 := by decide

example : (spanning? 0 10 4).map length = some 3 := by decide

example : spanning? (-1) maxSpan 1 = none := by decide

end IndexRange

end WireView
