import Mathlib.Algebra.Order.Ring.Int
import WireView.Proofs.Requests

/-!
# Ranges in machine words

A range is found, and its members are computed and recognised, in words of 64 bits, for bounds
and a stride that are any words at all. Nothing computed on the way overflows: the one distance
that may be too long for a word is checked, and then there is no range. So a range is the list of
its members, from the first up to the last one that the bound allows, and the same tests decide
it at the ends of the words as anywhere else.
-/

namespace WireView

/-- The number in a signed word, if it fits one. -/
def word? (x : Int) : Option Int := if -2 ^ 63 ≤ x ∧ x < 2 ^ 63 then some x else none

def count? (x : Int) : Option Nat := if 0 ≤ x ∧ x < 2 ^ 64 then some x.toNat else none

theorem word?_eq {x : Int} (low : -2 ^ 63 ≤ x) (high : x < 2 ^ 63) : word? x = some x :=
  if_pos ⟨low, high⟩

theorem word?_of_lt {x : Int} (high : maxSpan < x) : word? x = none := by
  apply if_neg
  simp only [maxSpan] at high
  omega

theorem count?_eq {x : Int} {n : Nat} (same : x = n) (high : n < 2 ^ 64) :
    count? x = some n := by
  subst same
  rw [count?, if_pos (by omega), Int.toNat_natCast]

namespace IndexRange

/-- A range as it is kept in words, its last member with it. -/
structure Words where
  lower : Int
  upper : Int
  stride : Int
  length : Nat
  deriving DecidableEq

def words (r : IndexRange) : Words := ⟨r.lower, r.upper, r.stride, r.length⟩

namespace Words

/-- The range with the given bounds and stride, computed in words, or that there is none. Nothing
comes of it where a step overflows. The distance of the bounds and the number of members are
checked, and there is no range where one of them does not fit a word. -/
def spanning (lower upper stride : Int) : Option (Option Words) :=
  if stride ≤ 0 ∨ upper < lower then some none
  else
    match word? (upper - lower) with
    | none => some none
    | some span => do
      let steps ← word? (span.tdiv stride)
      match count? steps >>= fun n => count? (n + 1) with
      | none => some none
      | some length =>
        let reach ← word? (steps * stride)
        let last ← word? (lower + reach)
        return some ⟨lower, last, stride, length⟩

def member (w : Words) (i : Nat) : Option Int := do
  let i ← word? i
  let away ← word? (i * w.stride)
  word? (w.lower + away)

/-- Whether a number is a member, unless a step overflows. The distance from the first member is
computed only for a number between the bounds. -/
def contains (w : Words) (v : Int) : Option Bool :=
  if w.lower ≤ v ∧ v ≤ w.upper then do
    let away ← word? (v - w.lower)
    return away.tmod w.stride = 0
  else some false

end Words

variable {r r' : IndexRange} {lower upper stride : Int} {i j : Nat}

theorem member?_eq (hi : i < r.length) : r.member? i = some (r.lower + i * r.stride) := by
  rw [member?, if_pos hi, Int.natCast_mul]

theorem lt_length_of_member? {k : Int} (h : r.member? i = some k) :
    i < r.length ∧ k = r.lower + i * r.stride := by
  unfold member? at h
  split at h
  · next hi =>
    cases h
    exact ⟨hi, by rw [Int.natCast_mul]⟩
  · cases h

theorem upper_eq (r : IndexRange) : r.upper = r.lower + (r.length - 1 : Nat) * r.stride := by
  rw [upper, Int.natCast_mul]

theorem member?_last (r : IndexRange) : r.member? (r.length - 1) = some r.upper := by
  have := r.length_pos
  rw [member?_eq (by omega), upper_eq]

theorem member?_strictMono {k l : Int} (hij : i < j) (hk : r.member? i = some k)
    (hl : r.member? j = some l) : k < l := by
  obtain ⟨-, rfl⟩ := lt_length_of_member? hk
  obtain ⟨-, rfl⟩ := lt_length_of_member? hl
  have step : (i : Int) * r.stride < j * r.stride :=
    Int.mul_lt_mul_of_pos_right (by omega) (by have := r.stride_pos; omega)
  omega

/-- No member is past the last one. -/
theorem away_le (hi : i < r.length) : (i : Int) * r.stride ≤ r.upper - r.lower := by
  have far : (i : Int) * r.stride ≤ (r.length - 1 : Nat) * r.stride :=
    Int.mul_le_mul_of_nonneg_right (by omega) (by omega)
  have last := r.upper_eq
  omega

theorem mem_iff_exists_member {v : Int} : v ∈ r ↔ ∃ i < r.length, r.member? i = some v := by
  have pos : (0 : Int) < r.stride := by have := r.stride_pos; omega
  constructor
  · rintro ⟨low, high, steps⟩
    obtain ⟨n, hn⟩ := Int.dvd_of_emod_eq_zero steps
    rw [Int.mul_comm] at hn
    have nonneg : 0 ≤ n := by
      apply Int.nonneg_of_mul_nonneg_left _ pos
      omega
    have below : n < r.length := by
      apply Int.lt_of_mul_lt_mul_right _ (Int.le_of_lt pos)
      have last := r.upper_eq
      have count : ((r.length - 1 : Nat) : Int) = r.length - 1 := by
        have := r.length_pos
        omega
      rw [count, Int.sub_mul] at last
      omega
    refine ⟨n.toNat, by omega, ?_⟩
    rw [member?_eq (by omega), Int.toNat_of_nonneg nonneg]
    congr 1
    omega
  · rintro ⟨i, hi, hv⟩
    obtain ⟨-, rfl⟩ := lt_length_of_member? hv
    have far := away_le hi
    have forward : 0 ≤ (i : Int) * r.stride := Int.mul_nonneg (by omega) (by omega)
    refine ⟨by omega, by omega, ?_⟩
    have back : r.lower + (i : Int) * r.stride - r.lower = i * r.stride := by omega
    rw [back, Int.mul_emod_left]

/-- A range has no more to it than its stride and its members. -/
theorem eq_iff_same_members : r = r' ↔ r.stride = r'.stride ∧ ∀ v, v ∈ r ↔ v ∈ r' := by
  constructor
  · rintro rfl
    exact ⟨rfl, fun _ => Iff.rfl⟩
  · rintro ⟨stride, members⟩
    have least : r.lower = r'.lower :=
      Int.le_antisymm ((members _).mpr r'.lower_mem).1 ((members _).mp r.lower_mem).1
    have greatest : r.upper = r'.upper :=
      Int.le_antisymm ((members _).mp r.upper_mem).2.1 ((members _).mpr r'.upper_mem).2.1
    have count : r.length - 1 = r'.length - 1 := by
      rw [upper_eq, upper_eq, least, stride] at greatest
      have pos : (r'.stride : Int) ≠ 0 := by have := r'.stride_pos; omega
      have same := Int.eq_of_mul_eq_mul_right pos (Int.add_left_cancel greatest)
      omega
    have := r.length_pos
    have := r'.length_pos
    cases r
    cases r'
    simp only [mk.injEq]
    exact ⟨least, stride, by simp only at *; omega⟩

/-- The range that is asked for, with no account of words. -/
theorem spanning?_eq_some (h : spanning? lower upper stride = some r) :
    r.lower = lower ∧ (r.stride : Int) = stride ∧ r.length = ((upper - lower) / stride).toNat + 1 ∧
      lower ≤ upper ∧ upper - lower ≤ maxSpan := by
  unfold spanning? at h
  split at h
  · next asked =>
    cases h
    exact ⟨rfl, Int.toNat_of_nonneg (Int.le_of_lt asked.1), rfl, asked.2⟩
  · cases h

theorem upper_of_spanning? (h : spanning? lower upper stride = some r) :
    r.upper = lower + (upper - lower) / stride * stride := by
  obtain ⟨first, step, count, order, -⟩ := spanning?_eq_some h
  have steps : 0 ≤ (upper - lower) / stride := Int.ediv_nonneg (by omega) (by omega)
  have last : ((r.length - 1 : Nat) : Int) = (upper - lower) / stride := by omega
  rw [upper_eq, first, step, last]

/-- The last member is the last one up to the bound. -/
theorem upper_bounds (h : spanning? lower upper stride = some r) :
    r.upper ≤ upper ∧ upper - r.upper < stride := by
  obtain ⟨-, step, -, -, -⟩ := spanning?_eq_some h
  have pos : 0 < stride := by have := r.stride_pos; omega
  have split := Int.mul_ediv_add_emod (upper - lower) stride
  have left := Int.emod_nonneg (upper - lower) (Int.ne_of_gt pos)
  have less := Int.emod_lt_of_pos (upper - lower) pos
  rw [upper_of_spanning? h, Int.mul_comm]
  omega

theorem isSome_spanning? :
    (spanning? lower upper stride).isSome ↔
      0 < stride ∧ lower ≤ upper ∧ upper - lower ≤ maxSpan := by
  unfold spanning?
  split
  · next asked =>
    constructor
    · exact fun _ => asked
    · exact fun _ => rfl
  · next refused =>
    constructor
    · exact fun some => absurd some Bool.false_ne_true
    · exact fun asked => absurd asked refused

namespace Words

/-- The steps of finding a range, when its bounds are in order and not too far apart. -/
theorem spanning_of_range (low : -2 ^ 63 ≤ lower) (high : upper < 2 ^ 63)
    (h : spanning? lower upper stride = some r) :
    spanning lower upper stride = some (some r.words) := by
  have bounds := upper_bounds h
  obtain ⟨rfl, rfl, count, order, near⟩ := spanning?_eq_some h
  simp only [maxSpan] at near
  have pos : 0 < r.stride ∧ 0 < r.length := ⟨r.stride_pos, r.length_pos⟩
  have steps : (upper - r.lower).tdiv r.stride = (r.length - 1 : Nat) := by
    rw [Int.tdiv_eq_ediv_of_nonneg (by omega), count, Nat.add_sub_cancel,
      Int.toNat_of_nonneg (Int.ediv_nonneg (by omega) (by omega))]
  have few : ((r.length - 1 : Nat) : Int) ≤ upper - r.lower := by
    rw [← steps, Int.tdiv_eq_ediv_of_nonneg (by omega)]
    exact Int.ediv_le_self _ (by omega)
  have away := r.upper_eq
  have forward : 0 ≤ ((r.length - 1 : Nat) : Int) * r.stride := Int.mul_nonneg (by omega) (by omega)
  have distance : word? (upper - r.lower) = some (upper - r.lower) :=
    word?_eq (by omega) (by omega)
  have stepped : word? ((r.length - 1 : Nat) : Int) = some ((r.length - 1 : Nat) : Int) :=
    word?_eq (by omega) (by omega)
  have counted : count? ((r.length - 1 : Nat) : Int) = some (r.length - 1) :=
    count?_eq rfl (by omega)
  have next : count? ((r.length - 1 : Nat) + 1) = some r.length :=
    count?_eq (by omega) (by omega)
  have length : (count? ((r.length - 1 : Nat) : Int) >>= fun n => count? (n + 1)) =
      some r.length := Option.bind_eq_some_iff.mpr ⟨_, counted, next⟩
  have reach : word? ((r.length - 1 : Nat) * r.stride) = some ((r.length - 1 : Nat) * r.stride) :=
    word?_eq (by omega) (by omega)
  have last : word? (r.lower + (r.length - 1 : Nat) * r.stride) = some r.upper := by
    rw [← away]
    exact word?_eq (by omega) (by omega)
  rw [spanning, if_neg (by omega), distance]
  simp only [steps]
  refine Option.bind_eq_some_iff.mpr ⟨_, stepped, ?_⟩
  rw [length]
  exact Option.bind_eq_some_iff.mpr ⟨_, reach, Option.bind_eq_some_iff.mpr ⟨_, last, rfl⟩⟩

/-- Finding a range in words, no step overflows. -/
theorem spanning_eq (low : -2 ^ 63 ≤ lower) (high : upper < 2 ^ 63) :
    spanning lower upper stride = some ((spanning? lower upper stride).map words) := by
  cases found : spanning? lower upper stride with
  | some r => exact spanning_of_range low high found
  | none =>
    by_cases order : stride ≤ 0 ∨ upper < lower
    · rw [spanning, if_pos order]
      rfl
    · have far : maxSpan < upper - lower := by
        by_contra near
        have some : (spanning? lower upper stride).isSome :=
          isSome_spanning?.mpr ⟨by omega, by omega, Int.not_lt.mp near⟩
        rw [found] at some
        cases some
      rw [spanning, if_neg order, word?_of_lt far]
      rfl

/-- A member is found with no step that overflows, wherever the range lies. -/
theorem member_eq (low : -2 ^ 63 ≤ r.lower) (high : r.upper < 2 ^ 63)
    (near : r.upper - r.lower ≤ maxSpan) (hi : i < r.length) :
    r.words.member i = r.member? i := by
  have far := away_le hi
  have forward : 0 ≤ (i : Int) * r.stride := Int.mul_nonneg (by omega) (by omega)
  have index : (i : Int) ≤ i * r.stride := by
    exact_mod_cast Nat.le_mul_of_pos_right i r.stride_pos
  simp only [maxSpan] at near
  have counted : word? i = some (i : Int) := word?_eq (by omega) (by omega)
  have reach : word? (i * r.stride) = some (i * r.stride) := word?_eq (by omega) (by omega)
  have found : word? (r.lower + i * r.stride) = some (r.lower + i * r.stride) :=
    word?_eq (by omega) (by omega)
  rw [member?_eq hi, member]
  exact Option.bind_eq_some_iff.mpr ⟨_, counted, Option.bind_eq_some_iff.mpr ⟨_, reach, found⟩⟩

/-- A member is recognised with no step that overflows: a distance is taken between the bounds. -/
theorem contains_eq (near : r.upper - r.lower ≤ maxSpan) (v : Int) :
    r.words.contains v = some (decide (v ∈ r)) := by
  simp only [maxSpan] at near
  have means : v ∈ r ↔ (r.lower ≤ v ∧ v ≤ r.upper) ∧ (v - r.lower) % (r.stride : Int) = 0 :=
    and_assoc.symm
  by_cases inside : r.lower ≤ v ∧ v ≤ r.upper
  · have remainder : (v - r.lower).tmod r.stride = (v - r.lower) % r.stride :=
      Int.tmod_eq_emod_of_nonneg (by omega)
    refine (if_pos inside).trans (Option.bind_eq_some_iff.mpr
      ⟨_, word?_eq (x := v - r.lower) (by omega) (by omega), congrArg some ?_⟩)
    simp only [words, remainder, means, inside, and_self, true_and]
  · refine (if_neg inside).trans (congrArg some ?_)
    simp only [means, inside, false_and, decide_false]

end Words

/-- What is true of a range that was found, up to a bound. -/
structure Exact (r : IndexRange) (bound : Int) : Prop where
  /-- A member is computed at every index, and no step of it overflows. -/
  member : ∀ i < r.length, ∃ k, r.member? i = some k ∧ r.words.member i = some k
  increasing : ∀ i j k l, i < j → r.member? i = some k → r.member? j = some l → k < l
  /-- Any word is tested for being a member, and no step of it overflows. -/
  tested : ∀ v : Int64, r.words.contains v.toInt = some (decide (v.toInt ∈ r))
  mem_iff : ∀ v : Int, v ∈ r ↔ ∃ i < r.length, r.member? i = some v
  last : r.member? (r.length - 1) = some r.upper
  upper_le : r.upper ≤ bound
  bound_lt : bound - r.upper < r.stride
  fits_iff : ∀ extent, r.Fits extent ↔ ∀ k ∈ r, 0 ≤ k ∧ k < extent

theorem exact_of_spanning? (low : -2 ^ 63 ≤ lower) (high : upper < 2 ^ 63)
    (h : spanning? lower upper stride = some r) : r.Exact upper := by
  obtain ⟨upper_le, bound_lt⟩ := upper_bounds h
  obtain ⟨first, step, -, -, near⟩ := spanning?_eq_some h
  constructor
  · intro i hi
    refine ⟨_, member?_eq hi, ?_⟩
    rw [Words.member_eq (by omega) (by omega) (by omega) hi, member?_eq hi]
  · exact fun i j k l hij hk hl => member?_strictMono hij hk hl
  · exact fun v => Words.contains_eq (by omega) v.toInt
  · exact fun v => mem_iff_exists_member
  · exact r.member?_last
  · exact upper_le
  · omega
  · exact fun extent => fits_iff

/-- Ranges are exact for any words as bounds and stride. There is a range just when the stride is
positive, the bounds are in order and their distance is a word; nothing overflows where it is
found, nor later where members are computed or tested. It has its members in increasing order up
to the last one that the bound allows, contains these and nothing else, and fits an axis just when
all of them do. Two ranges are equal just when they have one stride and the same members. The
range over a whole axis of fewer than `2 ^ 63` positions has these positions in order. -/
theorem ranges_exact_in_words :
    (∀ lower upper stride : Int64,
      let range? := spanning? lower.toInt upper.toInt stride.toInt
      (range?.isSome ↔
        0 < stride ∧ lower ≤ upper ∧ upper.toInt - lower.toInt ≤ Int64.maxValue.toInt) ∧
      Words.spanning lower.toInt upper.toInt stride.toInt = some (range?.map words) ∧
      ∀ r ∈ range?, r.lower = lower.toInt ∧ (r.stride : Int) = stride.toInt ∧ r.Exact upper.toInt) ∧
    (∀ r r' : IndexRange, r = r' ↔ r.stride = r'.stride ∧ ∀ v, v ∈ r ↔ v ∈ r') ∧
    ∀ n, 1 ≤ n → n < 2 ^ 63 →
      ∃ r, whole? n = some r ∧ r.length = n ∧ ∀ i < n, r.member? i = some (i : Int) := by
  refine ⟨?_, fun _ _ => eq_iff_same_members, ?_⟩
  · intro lower upper stride range?
    have low : -2 ^ 63 ≤ lower.toInt := lower.le_toInt
    have high : upper.toInt < 2 ^ 63 := upper.toInt_lt
    refine ⟨?_, Words.spanning_eq low high, ?_⟩
    · rw [isSome_spanning?, Int64.lt_iff_toInt_lt, Int64.le_iff_toInt_le]
      rfl
    · intro r hr
      obtain ⟨first, step, -, -, -⟩ := spanning?_eq_some hr
      exact ⟨first, step, exact_of_spanning? low high hr⟩
  · intro n pos small
    refine ⟨full n pos, (whole?_eq small).trans (dif_pos pos), rfl, ?_⟩
    intro i hi
    rw [member?_eq hi]
    simp [full]

example : (spanning? (-2 ^ 63) (-1) 1).map length = some (2 ^ 63) := by decide

end IndexRange

end WireView
