import Mathlib
import WireView.Item.Operator

/-!
# The order of float patterns is that of floats

Comparison of stored floats looks at bit patterns alone: a magnitude past that of infinity is no
number, and numbers are ordered by rank, which is the magnitude with the sign. A float is what its
sign, exponent and significand make of a pattern. The two agree: as the magnitude goes up, so does
the exponent, and while the exponent stays the same the significand does.
-/

namespace WireView

open Float.Model (UnpackedFloat)
open Float.Model.UnpackedFloat (Sign unpack unpackSign unpackExponent unpackMantissa packedNaN)

namespace FloatOrder

open FloatFormat (magnitude rank)

/-- Two pairs that are in the same order compare alike. -/
theorem compare_congr {a b : Nat} {i j : Int} (less : a < b ↔ i < j) (more : b < a ↔ j < i) :
    compare a b = compare i j := by
  rcases Int.lt_trichotomy i j with up | same | down
  · rw [compare_lt_iff_lt.mpr up, compare_lt_iff_lt.mpr (less.mpr up)]
  · rw [compare_eq_iff_eq.mpr same, compare_eq_iff_eq.mpr (by omega)]
  · rw [compare_gt_iff_gt.mpr down, compare_gt_iff_gt.mpr (more.mpr down)]

section fields

variable (spec : Float.Model.Format)

/-- The magnitude of the infinities: all ones in the exponent, and nothing below it. -/
def top : Nat := (2 ^ spec.exponentBits - 1) * 2 ^ spec.mantissaBitsWithoutImplicit

/-- The exponent field of a magnitude. The numbers with the field zero go on below those with the
field one, at the same distance from each other. -/
def scale (a : Nat) : Nat := max 1 (a / 2 ^ spec.mantissaBitsWithoutImplicit)

/-- The power of two that the significand of a magnitude counts. -/
def exponent (a : Nat) : Int :=
  scale spec a - (spec.exponentBias + spec.mantissaBitsWithoutImplicit)

/-- The significand of a magnitude, with the leading bit that the pattern leaves out. -/
def significand (a : Nat) : Nat :=
  a - (scale spec a - 1) * 2 ^ spec.mantissaBitsWithoutImplicit

variable {a b : Nat}

theorem scale_sub_one_mul_le (a : Nat) :
    (scale spec a - 1) * 2 ^ spec.mantissaBitsWithoutImplicit ≤ a := by
  have below : scale spec a - 1 ≤ a / 2 ^ spec.mantissaBitsWithoutImplicit := by
    unfold scale
    generalize a / 2 ^ spec.mantissaBitsWithoutImplicit = field
    omega
  exact (Nat.mul_le_mul_right _ below).trans (Nat.div_mul_le_self a _)

/-- A greater magnitude has a greater exponent, or the same one and a greater significand. -/
theorem exponent_lt_or (less : a < b) :
    exponent spec a < exponent spec b ∨
      exponent spec a = exponent spec b ∧ significand spec a < significand spec b := by
  have scales : scale spec a ≤ scale spec b :=
    max_le_max_left 1 (Nat.div_le_div_right (Nat.le_of_lt less))
  rcases Nat.lt_or_eq_of_le scales with lower | same
  · left
    simp only [exponent]
    omega
  · right
    have rest := scale_sub_one_mul_le spec a
    rw [same] at rest
    simp only [exponent, significand, same]
    exact ⟨trivial, by omega⟩

/-- Comparing exponents first and significands second compares magnitudes. -/
theorem compare_exponent_then (a b : Nat) :
    (compare (exponent spec a) (exponent spec b)).then
      (compare (significand spec a) (significand spec b)) = compare a b := by
  rcases Nat.lt_trichotomy a b with less | rfl | more
  · rw [compare_lt_iff_lt.mpr less]
    rcases exponent_lt_or spec less with lower | ⟨same, less'⟩
    · rw [compare_lt_iff_lt.mpr lower]
      rfl
    · rw [compare_eq_iff_eq.mpr same, compare_lt_iff_lt.mpr less']
      rfl
  · simp
  · rw [compare_gt_iff_gt.mpr more]
    rcases exponent_lt_or spec more with lower | ⟨same, less'⟩
    · rw [compare_gt_iff_gt.mpr lower]
      rfl
    · rw [compare_eq_iff_eq.mpr same.symm, compare_gt_iff_gt.mpr less']
      rfl

end fields

section patterns

variable {spec : Float.Model.Format} (x : BitVec spec.numBits)

theorem numBits_sub_one (spec : Float.Model.Format) :
    spec.numBits - 1 = spec.mantissaBitsWithoutImplicit + spec.exponentBits := by
  simp only [Float.Model.Format.numBits]
  omega

theorem magnitude_eq_mod : magnitude x =
    x.toNat % 2 ^ (spec.mantissaBitsWithoutImplicit + spec.exponentBits) := by
  rw [magnitude, BitVec.toNat_setWidth, numBits_sub_one]

theorem magnitude_lt : magnitude x <
    2 ^ spec.mantissaBitsWithoutImplicit * 2 ^ spec.exponentBits := by
  rw [← Nat.pow_add, magnitude_eq_mod]
  exact Nat.mod_lt _ (Nat.two_pow_pos _)

theorem toNat_unpackMantissa :
    (unpackMantissa x).toNat = magnitude x % 2 ^ spec.mantissaBitsWithoutImplicit := by
  have := spec.hm
  have size : spec.mantissaBitsWithoutImplicit - 1 - 0 + 1 = spec.mantissaBitsWithoutImplicit := by
    omega
  rw [unpackMantissa, BitVec.toNat_cast, BitVec.extractLsb_toNat, size, magnitude_eq_mod,
    Nat.shiftRight_zero]
  exact (Nat.mod_mod_of_dvd _ (Nat.pow_dvd_pow 2 (Nat.le_add_right _ _))).symm

theorem toNat_unpackExponent :
    (unpackExponent x).toNat = magnitude x / 2 ^ spec.mantissaBitsWithoutImplicit := by
  have := spec.he
  have size : spec.mantissaBitsWithoutImplicit + spec.exponentBits - 1
      - spec.mantissaBitsWithoutImplicit + 1 = spec.exponentBits := by omega
  rw [unpackExponent, BitVec.toNat_cast, BitVec.extractLsb_toNat, size, magnitude_eq_mod,
    Nat.shiftRight_eq_div_pow, Nat.pow_add, Nat.mod_mul_right_div_self]

/-- The leading bit that a pattern leaves out counts for all bits of the mantissa and one more. -/
theorem toNat_implicit_append {m : Nat} (y : BitVec m) : (1#1 ++ y).toNat = 2 ^ m + y.toNat := by
  rw [BitVec.toNat_append, ← Nat.shiftLeft_add_eq_or_of_lt y.isLt, Nat.shiftLeft_eq]
  simp

theorem ofBitVec_unpackSign :
    Sign.ofBitVec (unpackSign x) = if x.msb then .negative else .positive := by
  have sign : unpackSign x = BitVec.ofBool x.msb := by
    apply BitVec.eq_of_getLsbD_eq
    intro i hi
    obtain rfl : i = 0 := by omega
    have some : 0 < spec.numBits := Nat.add_pos_left (Nat.add_pos_left Nat.one_pos _) _
    simp [unpackSign, BitVec.msb, BitVec.getMsbD_eq_getLsbD, numBits_sub_one, some]
  rw [sign]
  cases x.msb with
  | false => rfl
  | true => rfl

theorem unpackMantissa_eq_zero_iff :
    unpackMantissa x = 0#_ ↔ magnitude x % 2 ^ spec.mantissaBitsWithoutImplicit = 0 := by
  rw [← toNat_unpackMantissa, ← BitVec.toNat_inj, BitVec.toNat_zero]

theorem unpackExponent_eq_zero_iff :
    unpackExponent x = 0#_ ↔ magnitude x < 2 ^ spec.mantissaBitsWithoutImplicit := by
  rw [← BitVec.toNat_inj, toNat_unpackExponent, BitVec.toNat_zero,
    Nat.div_eq_zero_iff_lt (Nat.two_pow_pos _)]

/-- The exponent is all ones from the magnitude of infinity on. -/
theorem unpackExponent_eq_ones_iff : unpackExponent x = -1#_ ↔ top spec ≤ magnitude x := by
  have below : magnitude x / 2 ^ spec.mantissaBitsWithoutImplicit < 2 ^ spec.exponentBits :=
    Nat.div_lt_of_lt_mul (magnitude_lt x)
  rw [← BitVec.toNat_inj, toNat_unpackExponent, BitVec.neg_one_eq_allOnes, BitVec.toNat_allOnes,
    top, ← Nat.le_div_iff_mul_le (Nat.two_pow_pos _)]
  omega

theorem unpackExponent_ne_ones (below : magnitude x < top spec) : unpackExponent x ≠ -1#_ := by
  rw [Ne, unpackExponent_eq_ones_iff, Nat.not_le]
  exact below

/-- From the magnitude of infinity on, the mantissa is what the magnitude is past it. -/
theorem unpackMantissa_eq_zero_iff_of_top_le (past : top spec ≤ magnitude x) :
    unpackMantissa x = 0#_ ↔ magnitude x = top spec := by
  obtain ⟨rest, whole⟩ := Nat.exists_eq_add_of_le past
  have short : rest < 2 ^ spec.mantissaBitsWithoutImplicit := by
    have bound := magnitude_lt x
    have unit : 2 ^ spec.mantissaBitsWithoutImplicit * 2 ^ spec.exponentBits =
        top spec + 2 ^ spec.mantissaBitsWithoutImplicit := by
      rw [top, ← Nat.succ_mul, Nat.succ_eq_add_one, Nat.sub_add_cancel Nat.one_le_two_pow,
        Nat.mul_comm]
    omega
  rw [unpackMantissa_eq_zero_iff, whole, top, Nat.mul_add_mod_self_right, Nat.mod_eq_of_lt short]
  omega

theorem top_pos (spec : Float.Model.Format) : 0 < top spec := by
  have ones : 1 < 2 ^ spec.exponentBits := Nat.one_lt_two_pow (Nat.ne_of_gt spec.he)
  exact Nat.mul_pos (by omega) (Nat.two_pow_pos _)

end patterns

/-- Where a number stands in the order of its format, from the lowest to the greatest. -/
inductive Ranked (spec : Float.Model.Format) : UnpackedFloat → Int → Prop where
  | lowest : Ranked spec (.infinity .negative) (-top spec)
  | negative (a : Nat) (h : 0 < significand spec a) (pos : 0 < a) (below : a < top spec) :
      Ranked spec (.finite .negative (significand spec a) (exponent spec a) h) (-a)
  | zero (s : Sign) : Ranked spec (.zero s) 0
  | positive (a : Nat) (h : 0 < significand spec a) (pos : 0 < a) (below : a < top spec) :
      Ranked spec (.finite .positive (significand spec a) (exponent spec a) h) a
  | greatest : Ranked spec (.infinity .positive) (top spec)

namespace Ranked

variable {spec : Float.Model.Format} {u v : UnpackedFloat} {i j : Int}

theorem isNaN_eq (hu : Ranked spec u i) : u.isNaN = false := by
  cases hu <;> rfl

/-- Numbers are ordered by rank. -/
theorem compare_eq (hu : Ranked spec u i) (hv : Ranked spec v j) :
    u.compare v = some (compare i j) := by
  have less (h : i < j) : some Ordering.lt = some (compare i j) := by rw [compare_lt_iff_lt.mpr h]
  have more (h : j < i) : some Ordering.gt = some (compare i j) := by rw [compare_gt_iff_gt.mpr h]
  have same (h : i = j) : some Ordering.eq = some (compare i j) := by rw [compare_eq_iff_eq.mpr h]
  have := top_pos spec
  cases hu with
  | lowest =>
    cases hv with
    | lowest => exact same rfl
    | negative | zero | positive | greatest => exact less (by omega)
  | negative a h =>
    cases hv with
    | lowest => exact more (by omega)
    | negative b h' =>
      -- The fields compare magnitudes, and of two negative numbers the greater magnitude is less.
      simp only [UnpackedFloat.compare, compare_exponent_then]
      rw [Nat.compare_swap]
      exact congrArg some (compare_congr (by omega) (by omega))
    | zero | positive | greatest => exact less (by omega)
  | zero s =>
    cases hv with
    | lowest | negative => exact more (by omega)
    | zero => exact same rfl
    | positive | greatest => exact less (by omega)
  | positive a h =>
    cases hv with
    | lowest | negative | zero => exact more (by omega)
    | positive b h' =>
      simp only [UnpackedFloat.compare, compare_exponent_then]
      exact congrArg some (compare_congr (by omega) (by omega))
    | greatest => exact less (by omega)
  | greatest =>
    cases hv with
    | lowest | negative | zero | positive => exact more (by omega)
    | greatest => exact same rfl

end Ranked

section reading

theorem Ranked.infinity (spec : Float.Model.Format) (s : Sign) :
    Ranked spec (.infinity s) (s.apply (top spec)) := by
  cases s with
  | negative => exact .lowest
  | positive => exact .greatest

theorem Ranked.finite {spec : Float.Model.Format} {s : Sign} {m a : Nat} {e : Int} {h : 0 < m}
    (hm : m = significand spec a) (he : e = exponent spec a) (pos : 0 < a) (below : a < top spec) :
    Ranked spec (.finite s m e h) (s.apply a) := by
  subst hm he
  cases s with
  | negative => exact .negative a h pos below
  | positive => exact .positive a h pos below

variable (spec : Float.Model.Format) (x : BitVec spec.numBits)

theorem rank_eq_apply : rank x = (Sign.ofBitVec (unpackSign x)).apply (magnitude x) := by
  rw [ofBitVec_unpackSign, rank]
  cases x.msb with
  | false => rfl
  | true => rfl

/-- The patterns with a magnitude past that of infinity are no numbers. -/
theorem unpack_of_top_lt (nan : top spec < magnitude x) : unpack spec x = .notANumber := by
  have ones : unpackExponent x = -1#_ := (unpackExponent_eq_ones_iff x).mpr nan.le
  have rest : ¬unpackMantissa x = 0#_ := by
    rw [unpackMantissa_eq_zero_iff_of_top_le x nan.le]
    omega
  simp only [unpack, if_pos ones, if_neg rest]

theorem ranked_unpack_zero (zero : magnitude x = 0) : Ranked spec (unpack spec x) (rank x) := by
  have ones := unpackExponent_ne_ones x (zero ▸ top_pos spec)
  have field : unpackExponent x = 0#_ := by
    rw [unpackExponent_eq_zero_iff, zero]
    exact Nat.two_pow_pos _
  have rest : unpackMantissa x = 0#_ := by
    rw [unpackMantissa_eq_zero_iff, zero, Nat.zero_mod]
  have origin : rank x = 0 := by
    rw [rank, zero]
    split <;> rfl
  simp only [unpack, if_neg ones, if_pos field, dif_pos rest, origin]
  exact .zero _

theorem ranked_unpack_subnormal (pos : 0 < magnitude x)
    (small : magnitude x < 2 ^ spec.mantissaBitsWithoutImplicit) (below : magnitude x < top spec) :
    Ranked spec (unpack spec x) (rank x) := by
  have field : (unpackExponent x).toNat = 0 := by
    rw [toNat_unpackExponent, Nat.div_eq_of_lt small]
  have rest : (unpackMantissa x).toNat = magnitude x := by
    rw [toNat_unpackMantissa, Nat.mod_eq_of_lt small]
  have ones := unpackExponent_ne_ones x below
  have zero : unpackExponent x = 0#_ := (unpackExponent_eq_zero_iff x).mpr small
  have some : ¬unpackMantissa x = 0#_ := by
    rw [← BitVec.toNat_inj, rest, BitVec.toNat_zero]
    omega
  have one : scale spec (magnitude x) = 1 := by rw [scale, Nat.div_eq_of_lt small]; rfl
  simp only [unpack, if_neg ones, if_pos zero, dif_neg some, rank_eq_apply]
  apply Ranked.finite _ _ pos below
  · rw [rest, significand, one, Nat.sub_self, Nat.zero_mul, Nat.sub_zero]
  · rw [field, exponent, one]
    omega

theorem ranked_unpack_normal (large : 2 ^ spec.mantissaBitsWithoutImplicit ≤ magnitude x)
    (below : magnitude x < top spec) : Ranked spec (unpack spec x) (rank x) := by
  have unit : 0 < 2 ^ spec.mantissaBitsWithoutImplicit := Nat.two_pow_pos _
  have first : 1 ≤ magnitude x / 2 ^ spec.mantissaBitsWithoutImplicit :=
    (Nat.one_le_div_iff unit).mpr large
  have field : scale spec (magnitude x) = (unpackExponent x).toNat := by
    rw [toNat_unpackExponent, scale, max_eq_right first]
  have rest : (1#1 ++ unpackMantissa x).toNat = significand spec (magnitude x) := by
    have whole := Nat.div_add_mod' (magnitude x) (2 ^ spec.mantissaBitsWithoutImplicit)
    have before := Nat.sub_add_cancel first
    rw [← before, Nat.succ_mul, ← toNat_unpackExponent, ← field] at whole
    rw [toNat_implicit_append, toNat_unpackMantissa, significand]
    omega
  have ones := unpackExponent_ne_ones x below
  have zero : ¬unpackExponent x = 0#_ := by
    rw [unpackExponent_eq_zero_iff]
    omega
  simp only [unpack, if_neg ones, if_neg zero, rank_eq_apply]
  exact .finite rest (by rw [exponent, field]) (unit.trans_le large) below

/-- Any other pattern is a number, and its rank is the one it has by its sign and magnitude. -/
theorem ranked_unpack (number : magnitude x ≤ top spec) : Ranked spec (unpack spec x) (rank x) := by
  rcases Nat.lt_or_eq_of_le number with below | last
  · rcases Nat.eq_zero_or_pos (magnitude x) with zero | pos
    · exact ranked_unpack_zero spec x zero
    · rcases Nat.lt_or_ge (magnitude x) (2 ^ spec.mantissaBitsWithoutImplicit) with small | large
      · exact ranked_unpack_subnormal spec x pos small below
      · exact ranked_unpack_normal spec x large below
  · have ones : unpackExponent x = -1#_ := (unpackExponent_eq_ones_iff x).mpr last.ge
    have rest : unpackMantissa x = 0#_ := (unpackMantissa_eq_zero_iff_of_top_le x last.ge).mpr last
    simp only [unpack, if_pos ones, if_pos rest, rank_eq_apply, last]
    exact .infinity spec _

end reading

end FloatOrder

inductive Precision where
  | single
  | double

namespace Precision

open FloatOrder

abbrev kind : Precision → ItemKind
  | single => .float32
  | double => .float64

abbrev patterns : (s : Precision) → FloatFormat s.kind.bits
  | single => .binary32
  | double => .binary64

def format : Precision → Float.Model.Format
  | single => .binary32
  | double => .binary64

def read : (s : Precision) → Item s.kind → UnpackedFloat
  | single, x => unpack .binary32 x
  | double, x => unpack .binary64 x

/-- The quiet NaN with no payload. -/
def canonicalNaN : (s : Precision) → Item s.kind
  | single => packedNaN .binary32
  | double => packedNaN .binary64

variable {s : Precision} {x y : Item s.kind}

theorem quietNaN_eq (s : Precision) : s.patterns.quietNaN = s.canonicalNaN := by
  cases s <;> decide

theorem isNaN_canonicalNaN (s : Precision) : s.patterns.IsNaN s.canonicalNaN := by
  cases s <;> decide

theorem infinity_eq (s : Precision) : s.patterns.infinity = top s.format := by
  cases s <;> decide

theorem ranked_read (number : ¬s.patterns.IsNaN x) :
    Ranked s.format (s.read x) (FloatFormat.rank x) := by
  rw [FloatFormat.IsNaN, infinity_eq, Nat.not_lt] at number
  cases s with
  | single => exact ranked_unpack .binary32 x number
  | double => exact ranked_unpack .binary64 x number

/-- The test on bit patterns is whether the float is a NaN. -/
theorem isNaN_read : (s.read x).isNaN ↔ s.patterns.IsNaN x := by
  by_cases nan : s.patterns.IsNaN x
  · have none : s.read x = .notANumber := by
      rw [FloatFormat.IsNaN, infinity_eq] at nan
      cases s with
      | single => exact unpack_of_top_lt .binary32 x nan
      | double => exact unpack_of_top_lt .binary64 x nan
    simp [none, nan, UnpackedFloat.isNaN]
  · simp [(ranked_read nan).isNaN_eq, nan]

theorem compare_read (hx : ¬s.patterns.IsNaN x) (hy : ¬s.patterns.IsNaN y) :
    (s.read x).compare (s.read y) = some (compare (FloatFormat.rank x) (FloatFormat.rank y)) :=
  (ranked_read hx).compare_eq (ranked_read hy)

theorem le_read_iff (hx : ¬s.patterns.IsNaN x) (hy : ¬s.patterns.IsNaN y) :
    (s.read x).le (s.read y) ↔ FloatFormat.rank x ≤ FloatFormat.rank y := by
  simp [UnpackedFloat.le, compare_read hx hy, Std.isLE_compare]

theorem beq_read_self (hx : ¬s.patterns.IsNaN x) : (s.read x).beq (s.read x) := by
  simp [UnpackedFloat.beq, compare_read hx hx]

end Precision

end WireView
