import Mathlib.Logic.Function.Basic
import WireView.Item.Operator

/-!
# Operators that take no account of order

Sum and product are taken modulo a power of two, the bitwise operators act on each bit alone, and
min and max go by the number that an item stands for. So the operators of all items but floats are
commutative and associative, and a stored item may take in several incoming ones in any order.
-/

namespace WireView

/-- Whatever the order in which items are combined, the outcome is one. -/
structure Orderless {α : Type} (f : α → α → α) : Prop where
  comm : ∀ x y, f x y = f y x
  assoc : ∀ x y z, f (f x y) z = f x (f y z)

namespace Orderless

variable {α β : Type} {f : α → α → α} {g : β → β → β}

theorem swap (h : Orderless f) (z x y : α) : f (f z x) y = f (f z y) x := by
  rw [h.assoc, h.comm x y, h.assoc]

/-- An operator on items that acts on distinct numbers as an orderless one does is orderless. -/
theorem of_injective {key : α → β} (inj : Function.Injective key)
    (hom : ∀ x y, key (f x y) = g (key x) (key y)) (h : Orderless g) : Orderless f where
  comm := by
    intro x y
    apply inj
    rw [hom, hom, h.comm]
  assoc := by
    intro x y z
    apply inj
    rw [hom, hom, hom, hom, h.assoc]

end Orderless

section order

variable {w : Nat}

theorem toInt_injective : Function.Injective (BitVec.toInt : BitVec w → Int) :=
  fun _ _ same => BitVec.toInt_inj.mp same

theorem toNat_injective : Function.Injective (BitVec.toNat : BitVec w → Nat) :=
  fun _ _ same => BitVec.toNat_inj.mp same

theorem toInt_least (x y : BitVec w) :
    (if x.sle y then x else y).toInt = min x.toInt y.toInt := by
  by_cases le : x.toInt ≤ y.toInt
  · rw [if_pos (BitVec.sle_iff_toInt_le.mpr le), Int.min_eq_left le]
  · rw [if_neg (fun h => le (BitVec.sle_iff_toInt_le.mp h)), Int.min_eq_right (by omega)]

theorem toInt_greatest (x y : BitVec w) :
    (if x.sle y then y else x).toInt = max x.toInt y.toInt := by
  by_cases le : x.toInt ≤ y.toInt
  · rw [if_pos (BitVec.sle_iff_toInt_le.mpr le), Int.max_eq_right le]
  · rw [if_neg (fun h => le (BitVec.sle_iff_toInt_le.mp h)), Int.max_eq_left (by omega)]

theorem toNat_least (x y : BitVec w) :
    (if x.ule y then x else y).toNat = min x.toNat y.toNat := by
  by_cases le : x.toNat ≤ y.toNat
  · rw [if_pos (BitVec.ule_iff_toNat_le.mpr le), Nat.min_eq_left le]
  · rw [if_neg (fun h => le (BitVec.ule_iff_toNat_le.mp h)), Nat.min_eq_right (by omega)]

theorem toNat_greatest (x y : BitVec w) :
    (if x.ule y then y else x).toNat = max x.toNat y.toNat := by
  by_cases le : x.toNat ≤ y.toNat
  · rw [if_pos (BitVec.ule_iff_toNat_le.mpr le), Nat.max_eq_right le]
  · rw [if_neg (fun h => le (BitVec.ule_iff_toNat_le.mp h)), Nat.max_eq_left (by omega)]

end order

section tables

variable {w : Nat} {op : Operator}

theorem signedOperator_orderless {f : BitVec w → BitVec w → BitVec w}
    (h : signedOperator op = some f) : Orderless f := by
  cases op with
  | sum => cases h; exact ⟨BitVec.add_comm, BitVec.add_assoc⟩
  | product => cases h; exact ⟨BitVec.mul_comm, BitVec.mul_assoc⟩
  | min => cases h; exact .of_injective toInt_injective toInt_least ⟨Int.min_comm, Int.min_assoc⟩
  | max => cases h; exact .of_injective toInt_injective toInt_greatest ⟨Int.max_comm, Int.max_assoc⟩
  | and => cases h; exact ⟨BitVec.and_comm, BitVec.and_assoc⟩
  | or => cases h; exact ⟨BitVec.or_comm, BitVec.or_assoc⟩
  | xor => cases h; exact ⟨BitVec.xor_comm, BitVec.xor_assoc⟩
  | logicalAnd => cases h
  | logicalOr => cases h

theorem unsignedOperator_orderless {f : BitVec w → BitVec w → BitVec w}
    (h : unsignedOperator op = some f) : Orderless f := by
  unfold unsignedOperator at h
  split at h
  · cases h
    exact .of_injective toNat_injective toNat_least ⟨Nat.min_comm, Nat.min_assoc⟩
  · cases h
    exact .of_injective toNat_injective toNat_greatest ⟨Nat.max_comm, Nat.max_assoc⟩
  · exact signedOperator_orderless h

theorem truthOperator_orderless {f : BitVec 1 → BitVec 1 → BitVec 1}
    (h : truthOperator op = some f) : Orderless f := by
  cases op with
  | and | logicalAnd => cases h; exact ⟨BitVec.and_comm, BitVec.and_assoc⟩
  | or | logicalOr => cases h; exact ⟨BitVec.or_comm, BitVec.or_assoc⟩
  | xor => cases h; exact ⟨BitVec.xor_comm, BitVec.xor_assoc⟩
  | sum => cases h
  | product => cases h
  | min => cases h
  | max => cases h

/-- The built-in operators of all items but floats. -/
theorem OperatorTable.builtin_orderless {t : ItemKind} (noFloat : t ≠ .float32 ∧ t ≠ .float64)
    {f : Fold (Item t)} (h : (OperatorTable.builtin t).get? op = some f) : Orderless f.apply := by
  obtain ⟨g, hg, rfl⟩ := Option.map_eq_some_iff.mp h
  cases t with
  | bool => exact truthOperator_orderless hg
  | int8 | int16 | int32 | int64 => exact signedOperator_orderless hg
  | char => exact unsignedOperator_orderless hg
  | float32 => exact absurd rfl noFloat.1
  | float64 => exact absurd rfl noFloat.2

end tables

end WireView
