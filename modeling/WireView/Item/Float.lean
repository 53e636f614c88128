/-!
# Floating point numbers as bit patterns

A float is kept as the bits of its binary format, so that moving one never changes a bit of it,
not even of a NaN. Comparison reads the bits directly: among the patterns that are numbers, the
order of the numbers is the order of their ranks. Arithmetic is that of the machine's floats.
-/

namespace WireView

/-- The patterns of a binary format that its comparison has to know. -/
structure FloatFormat (w : Nat) where
  /-- The magnitude of the two infinities; a larger one is a NaN. -/
  infinity : Nat
  /-- The NaN that a comparison with a NaN results in. -/
  quietNaN : BitVec w

namespace FloatFormat

variable {w : Nat}

def binary32 : FloatFormat 32 := ⟨0x7f800000, 0x7fc00000#32⟩

def binary64 : FloatFormat 64 := ⟨0x7ff0000000000000, 0x7ff8000000000000#64⟩

/-- All bits of a pattern but its sign. -/
def magnitude (x : BitVec w) : Nat := (x.setWidth (w - 1)).toNat

/-- Where a number stands in the order of its format. The two zeros have one rank. -/
def rank (x : BitVec w) : Int := if x.msb then -(magnitude x : Int) else magnitude x

def IsNaN (f : FloatFormat w) (x : BitVec w) : Prop := f.infinity < magnitude x

instance (f : FloatFormat w) (x : BitVec w) : Decidable (f.IsNaN x) :=
  inferInstanceAs (Decidable (f.infinity < magnitude x))

/-- The lesser of two numbers; a NaN on either side results in the quiet NaN. -/
def min (f : FloatFormat w) (x y : BitVec w) : BitVec w :=
  if f.IsNaN x ∨ f.IsNaN y then f.quietNaN else if rank y < rank x then y else x

def max (f : FloatFormat w) (x y : BitVec w) : BitVec w :=
  if f.IsNaN x ∨ f.IsNaN y then f.quietNaN else if rank x < rank y then y else x

def lift32 (op : Float32 → Float32 → Float32) (x y : BitVec 32) : BitVec 32 :=
  (op (Float32.ofBits (UInt32.ofBitVec x)) (Float32.ofBits (UInt32.ofBitVec y))).toBits.toBitVec

def lift64 (op : Float → Float → Float) (x y : BitVec 64) : BitVec 64 :=
  (op (Float.ofBits (UInt64.ofBitVec x)) (Float.ofBits (UInt64.ofBitVec y))).toBits.toBitVec

example : binary32.min 0xbf800000#32 0x3f800000#32 = 0xbf800000#32 := by decide

example : binary64.max 0x7ff8000000001234#64 0#64 = 0x7ff8000000000000#64 := by decide

end FloatFormat

end WireView
