import WireView.Proofs.Contributions
import WireView.Proofs.FloatOrder

/-!
# Reductions to a least or greatest float

Min and max on floats let a NaN through from either side and make none of their own. So whatever
comes for an index, in whatever order and by whatever calls, the outcome is the canonical NaN as
soon as one NaN is among the items, and otherwise a number that came, with none beyond it. Which of
two zeros is left is not said: they compare equal.
-/

namespace WireView

open Float.Model (UnpackedFloat)

namespace FloatFormat

variable {w : Nat}

/-- Of two numbers the one with the lesser key, or the first of two with one key; a NaN on either
side results in the quiet NaN. -/
def pick (f : FloatFormat w) (key : BitVec w → Int) (x y : BitVec w) : BitVec w :=
  if f.IsNaN x ∨ f.IsNaN y then f.quietNaN else if key y < key x then y else x

theorem min_eq_pick (f : FloatFormat w) : f.min = f.pick rank := rfl

theorem max_eq_pick (f : FloatFormat w) : f.max = f.pick fun x => -rank x := by
  funext x y
  simp only [max, pick, Int.neg_lt_neg_iff]

variable {f : FloatFormat w} {key : BitVec w → Int} {x y : BitVec w} {xs : List (BitVec w)}

theorem pick_eq_quietNaN (nan : f.IsNaN (f.pick key x y)) : f.pick key x y = f.quietNaN := by
  by_cases either : f.IsNaN x ∨ f.IsNaN y
  · rw [pick, if_pos either]
  · exfalso
    rw [not_or] at either
    rw [pick, if_neg (not_or.mpr either)] at nan
    split at nan
    · exact either.2 nan
    · exact either.1 nan

theorem isNaN_pick_iff (quiet : f.IsNaN f.quietNaN) :
    f.IsNaN (f.pick key x y) ↔ f.IsNaN x ∨ f.IsNaN y := by
  by_cases either : f.IsNaN x ∨ f.IsNaN y
  · rw [pick, if_pos either]
    exact iff_of_true quiet either
  · rw [pick, if_neg either]
    rw [not_or] at either
    split <;> simp [either]

/-- Of two numbers one is picked, and neither has a lesser key. -/
theorem pick_of_numbers (key : BitVec w → Int) (hx : ¬f.IsNaN x) (hy : ¬f.IsNaN y) :
    (f.pick key x y = x ∨ f.pick key x y = y) ∧
      key (f.pick key x y) ≤ key x ∧ key (f.pick key x y) ≤ key y := by
  rw [pick, if_neg (not_or.mpr ⟨hx, hy⟩)]
  split
  · exact ⟨.inr rfl, by omega, by omega⟩
  · exact ⟨.inl rfl, by omega, by omega⟩

/-- A NaN among the items that come in is never lost, and none is made of numbers. -/
theorem isNaN_foldl_iff (quiet : f.IsNaN f.quietNaN) (key : BitVec w → Int) (y : BitVec w)
    (xs : List (BitVec w)) :
    f.IsNaN (xs.foldl (f.pick key) y) ↔ ∃ x ∈ y :: xs, f.IsNaN x := by
  induction xs generalizing y with
  | nil => simp
  | cons x xs ih =>
    rw [List.foldl_cons, ih]
    simp only [List.exists_mem_cons_iff, isNaN_pick_iff quiet, or_assoc]

theorem foldl_eq_quietNaN (some : xs ≠ []) (nan : f.IsNaN (xs.foldl (f.pick key) y)) :
    xs.foldl (f.pick key) y = f.quietNaN := by
  obtain ⟨front, last, rfl⟩ := (List.eq_nil_or_concat' xs).resolve_left some
  rw [List.foldl_concat] at nan ⊢
  exact pick_eq_quietNaN nan

/-- Of numbers one is left in the end, and none has a lesser key. -/
theorem foldl_of_numbers (key : BitVec w → Int) (numbers : ∀ x ∈ y :: xs, ¬f.IsNaN x) :
    xs.foldl (f.pick key) y ∈ y :: xs ∧
      ∀ x ∈ y :: xs, key (xs.foldl (f.pick key) y) ≤ key x := by
  induction xs generalizing y with
  | nil => simp
  | cons x xs ih =>
    rw [List.forall_mem_cons, List.forall_mem_cons] at numbers
    obtain ⟨hy, hx, later⟩ := numbers
    obtain ⟨one, first, second⟩ := pick_of_numbers key hy hx
    have picked : ∀ z ∈ f.pick key y x :: xs, ¬f.IsNaN z := by
      rw [List.forall_mem_cons]
      exact ⟨by rcases one with one | one <;> rwa [one], later⟩
    obtain ⟨among, least⟩ := ih picked
    rw [List.forall_mem_cons] at least
    rw [List.foldl_cons, List.forall_mem_cons, List.forall_mem_cons]
    refine ⟨?_, least.1.trans first, least.1.trans second, least.2⟩
    rcases List.mem_cons.mp among with same | inside
    · rw [same]
      rcases one with one | one <;> simp [one]
    · exact List.mem_cons_of_mem _ (List.mem_cons_of_mem _ inside)

end FloatFormat

inductive Extreme where
  | least
  | greatest

namespace Extreme

def operator : Extreme → Operator
  | least => .min
  | greatest => .max

/-- A float with none past it among some others. -/
def Bounds : Extreme → UnpackedFloat → UnpackedFloat → Prop
  | least, u, v => u.le v
  | greatest, u, v => v.le u

/-- The number that a reduction makes as small as it can. -/
def key {w : Nat} : Extreme → BitVec w → Int
  | least, x => FloatFormat.rank x
  | greatest, x => -FloatFormat.rank x

/-- Both float types have the operator, and it picks by the key. -/
theorem get?_builtin (e : Extreme) (s : Precision) :
    (Operators.builtin.get s.kind).get? e.operator =
      some ⟨e.operator.name, s.patterns.pick e.key⟩ := by
  rw [Operators.builtin, PerKind.get_tabulate]
  cases e with
  | least =>
    have picks : s.patterns.min = s.patterns.pick Extreme.least.key := s.patterns.min_eq_pick
    rw [← picks]
    cases s <;> rfl
  | greatest =>
    have picks : s.patterns.max = s.patterns.pick Extreme.greatest.key := s.patterns.max_eq_pick
    rw [← picks]
    cases s <;> rfl

variable {s : Precision} {x y : Item s.kind}

theorem bounds_read_iff (e : Extreme) (hx : ¬s.patterns.IsNaN x) (hy : ¬s.patterns.IsNaN y) :
    e.Bounds (s.read x) (s.read y) ↔ e.key x ≤ e.key y := by
  cases e with
  | least => exact Precision.le_read_iff hx hy
  | greatest => exact (Precision.le_read_iff hy hx).trans Int.neg_le_neg_iff.symm

end Extreme

/-- What a reduction of some floats may come to. A NaN among them results in the canonical NaN, and
numbers result in one that compares equal to one of them, with none of them past it. -/
structure Extremum (s : Precision) (e : Extreme) (xs : List (Item s.kind)) (z : Item s.kind) :
    Prop where
  nan_iff : (s.read z).isNaN ↔ ∃ x ∈ xs, (s.read x).isNaN
  canonical : (s.read z).isNaN → z = s.canonicalNaN
  attained : ¬(s.read z).isNaN → ∃ x ∈ xs, (s.read z).beq (s.read x)
  bounds : ¬(s.read z).isNaN → ∀ x ∈ xs, e.Bounds (s.read z) (s.read x)

theorem Extremum.of_foldl (s : Precision) (e : Extreme) (y : Item s.kind) {xs : List (Item s.kind)}
    (some : xs ≠ []) : Extremum s e (y :: xs) (xs.foldl (s.patterns.pick e.key) y) := by
  have quiet : s.patterns.IsNaN s.patterns.quietNaN := s.quietNaN_eq ▸ s.isNaN_canonicalNaN
  let z := xs.foldl (s.patterns.pick e.key) y
  have nan_iff : (s.read z).isNaN ↔ ∃ x ∈ y :: xs, (s.read x).isNaN := by
    simp only [Precision.isNaN_read]
    exact FloatFormat.isNaN_foldl_iff quiet e.key y xs
  have numbers (number : ¬(s.read z).isNaN) : ∀ x ∈ y :: xs, ¬s.patterns.IsNaN x := by
    intro x hx nan
    exact number (nan_iff.mpr ⟨x, hx, Precision.isNaN_read.mpr nan⟩)
  constructor
  · exact nan_iff
  · intro nan
    exact (FloatFormat.foldl_eq_quietNaN some (Precision.isNaN_read.mp nan)).trans s.quietNaN_eq
  · intro number
    have among := (FloatFormat.foldl_of_numbers e.key (numbers number)).1
    exact ⟨z, among, Precision.beq_read_self (numbers number z among)⟩
  · intro number x hx
    obtain ⟨among, least⟩ := FloatFormat.foldl_of_numbers e.key (numbers number)
    exact (e.bounds_read_iff (numbers number z among) (numbers number x hx)).mpr (least x hx)

section reductions

open Contribution

/-- A reduction of floats by min or max. Both float types have the built-in operator, and a view
that folds with it may be sent any puts and any windows to unpack, in any order. An index that
nothing came for keeps its item, and any other holds what the reduction of the first item and of
those that came may come to. -/
theorem float_reduction_keeps_extremum (s : Precision) (e : Extreme) :
    ∃ f, (Operators.builtin.get s.kind).get? e.operator = some f ∧
      ∀ (v : View) (m : Memory s.kind), v.Laid m →
      ∀ (cs : List (Contribution s.kind)), ∀ i < v.length,
        let p : Endpoint s.kind := ⟨v, some f⟩
        let xs := itemsAt v.length i cs
        ∃ y z, p.get i m = .ok y m ∧ p.get i (afterAll p cs m) = .ok z (afterAll p cs m) ∧
          (xs = [] → z = y) ∧ (xs ≠ [] → Extremum s e (y :: xs) z) := by
  refine ⟨_, e.get?_builtin s, ?_⟩
  intro v m laid cs i hi p xs
  obtain ⟨y, before, after⟩ := get_afterAll (p := p) laid cs hi
  refine ⟨y, _, before, after, ?_, fun some => Extremum.of_foldl s e y some⟩
  intro none
  have untouched : itemsAt p.length i cs = [] := none
  rw [untouched, List.foldl_nil]

/-- Two cells hold five. Minus infinity and a NaN that is not quiet come for them in one window,
then one for the second cell, and an item past the end that is refused. -/
theorem float_reduction_keeps_extremum_of_mixed_calls :
    let m : Memory .float32 := ⟨#[#[0x40a00000#32, 0x40a00000#32]]⟩
    let v : View := .array ⟨0, 2⟩ ⟨0, 1, 2, by decide, by decide⟩
    let cs : List (Contribution .float32) :=
      [.unpack 0 9 [0xff, 0x80, 0, 0, 0x7f, 0x80, 0, 1], .put 1 0x3f800000#32, .put 2 0]
    v.Laid m ∧ ∃ f, (Operators.builtin.get .float32).get? .min = some f ∧
      let p : Endpoint .float32 := ⟨v, some f⟩
      (∃ z, p.get 0 (afterAll p cs m) = .ok z (afterAll p cs m) ∧
        Extremum .single .least [0x40a00000#32, 0xff800000#32] z) ∧
      ∃ z, p.get 1 (afterAll p cs m) = .ok z (afterAll p cs m) ∧
        Extremum .single .least [0x40a00000#32, 0x7f800001#32, 0x3f800000#32] z ∧
        z = 0x7fc00000#32 := by
  intro m v cs
  have laid : v.Laid m := by
    refine ⟨by decide, ?_⟩
    rintro s ⟨⟩
    rfl
  obtain ⟨f, builtin, all⟩ := float_reduction_keeps_extremum .single .least
  refine ⟨laid, f, builtin, ?_, ?_⟩
  · obtain ⟨y, z, first, last, -, extremum⟩ := all v m laid cs 0 (by decide)
    have five : y = 0x40a00000#32 := by
      cases first
      rfl
    subst y
    exact ⟨z, last, extremum (by decide)⟩
  · obtain ⟨y, z, first, last, -, extremum⟩ := all v m laid cs 1 (by decide)
    have five : y = 0x40a00000#32 := by
      cases first
      rfl
    subst y
    have some := extremum (by decide)
    exact ⟨z, last, some, some.canonical (some.nan_iff.mpr ⟨0x7f800001#32, by decide, by decide⟩)⟩

end reductions

end WireView
