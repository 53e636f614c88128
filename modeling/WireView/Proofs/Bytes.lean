import Mathlib.Algebra.GroupWithZero.Nat
import WireView.Item.Basic

/-!
# Items in a string of bytes

How many items a string of bytes holds and which they are does not change when the string is cut
between two items, or when more bytes follow. Items are read back from the bytes they are written
in.
-/

namespace WireView

variable {t : ItemKind}

@[simp] theorem length_decodeMany (t : ItemKind) (n : Nat) (bs : List UInt8) :
    (decodeMany t n bs).length = n := by
  induction n generalizing bs with
  | zero => rfl
  | succ n ih => rw [decodeMany, List.length_cons, ih]

theorem decodeMany_add (t : ItemKind) (n k : Nat) (bs : List UInt8) :
    decodeMany t (n + k) bs = decodeMany t n bs ++ decodeMany t k (bs.drop (n * t.width)) := by
  induction n generalizing bs with
  | zero => simp [decodeMany]
  | succ n ih =>
    have shift : t.width + n * t.width = (n + 1) * t.width := by rw [Nat.succ_mul, Nat.add_comm]
    rw [Nat.succ_add, decodeMany, decodeMany, ih, List.drop_drop, shift, List.cons_append]

/-- Only the bytes of the items themselves are read. -/
theorem decodeMany_take (t : ItemKind) {n size : Nat} (bs : List UInt8)
    (enough : n * t.width ≤ size) : decodeMany t n (bs.take size) = decodeMany t n bs := by
  induction n generalizing bs size with
  | zero => rfl
  | succ n ih =>
    rw [Nat.succ_mul] at enough
    rw [decodeMany, decodeMany, List.take_take, Nat.min_eq_left (by omega), List.drop_take,
      ih _ (by omega)]

theorem decodeMany_append (t : ItemKind) {n : Nat} {bs : List UInt8} (cs : List UInt8)
    (enough : n * t.width ≤ bs.length) : decodeMany t n (bs ++ cs) = decodeMany t n bs := by
  rw [← decodeMany_take t (bs ++ cs) enough, List.take_left]

/-- The item at an index lies a number of widths into the string. -/
theorem decodeMany_eq_map (t : ItemKind) (n : Nat) (bs : List UInt8) :
    decodeMany t n bs =
      (List.range n).map fun j => Item.decode t ((bs.drop (j * t.width)).take t.width) := by
  induction n with
  | zero => rfl
  | succ n ih =>
    rw [decodeMany_add, ih, List.range_succ, List.map_append]
    rfl

theorem take_decodeMany (t : ItemKind) (n k : Nat) (bs : List UInt8) :
    (decodeMany t n bs).take k = decodeMany t (min k n) bs := by
  by_cases h : k ≤ n
  · have split : n = k + (n - k) := by omega
    rw [Nat.min_eq_left h, split, decodeMany_add, List.take_left' (length_decodeMany t k bs)]
  · rw [Nat.min_eq_right (by omega), List.take_of_length_le (by simp; omega)]

theorem drop_decodeMany (t : ItemKind) (n k : Nat) (bs : List UInt8) :
    (decodeMany t n bs).drop k = decodeMany t (n - k) (bs.drop (k * t.width)) := by
  by_cases h : k ≤ n
  · have split : n = k + (n - k) := by omega
    rw [split, decodeMany_add, List.drop_left' (length_decodeMany t k bs), Nat.add_sub_cancel_left]
  · have none : n - k = 0 := by omega
    rw [none, List.drop_of_length_le (by simp; omega), decodeMany]

theorem wholeItems_mul_le (t : ItemKind) (size : Nat) : wholeItems t size * t.width ≤ size :=
  Nat.div_mul_le_self size t.width

/-- Less than one item is left over after the whole ones. -/
theorem lt_wholeItems_add_one_mul (t : ItemKind) (size : Nat) :
    size < (wholeItems t size + 1) * t.width :=
  Nat.lt_mul_of_div_lt (Nat.lt_succ_self _) t.width_pos

/-- The bytes after the whole items are fewer than an item has. -/
theorem length_drop_wholeItems_lt (t : ItemKind) (bs : List UInt8) :
    (bs.drop (wholeItems t bs.length * t.width)).length < t.width := by
  rw [List.length_drop, wholeItems, ← Nat.mod_eq_sub_div_mul]
  exact Nat.mod_lt _ t.width_pos

theorem le_wholeItems {n size : Nat} : n ≤ wholeItems t size ↔ n * t.width ≤ size :=
  Nat.le_div_iff_mul_le t.width_pos

/-- A number of whole items leaves less than one item behind only if it is all of them. -/
theorem wholeItems_eq {n size : Nat} (least : n * t.width ≤ size)
    (most : size < (n + 1) * t.width) : wholeItems t size = n := by
  have lower : n ≤ wholeItems t size := le_wholeItems.mpr least
  have upper : ¬n + 1 ≤ wholeItems t size := fun h => by
    have := le_wholeItems.mp h
    omega
  omega

theorem wholeItems_drop (t : ItemKind) (n : Nat) (bs : List UInt8) :
    wholeItems t (bs.drop (n * t.width)).length = wholeItems t bs.length - n := by
  rw [List.length_drop, wholeItems, Nat.mul_comm]
  exact Nat.sub_mul_div _ _ _

/-- The bytes of a number give back as much of it as they have room for. -/
theorem ofBigEndian_bigEndian (n x : Nat) : ofBigEndian (bigEndian n x) = x % 256 ^ n := by
  induction n generalizing x with
  | zero => exact (Nat.mod_one x).symm
  | succ n ih =>
    have last : (UInt8.ofNat x).toNat = x % 256 := UInt8.toNat_ofNat'
    have front : ofBigEndian (bigEndian n (x / 256)) = x / 256 % 256 ^ n := ih (x / 256)
    rw [ofBigEndian] at front
    rw [bigEndian, ofBigEndian, List.foldl_append, front, List.foldl_cons, List.foldl_nil, last,
      Nat.pow_succ, Nat.mul_comm (256 ^ n), Nat.mod_mul, Nat.add_comm, Nat.mul_comm 256]

namespace Item

theorem toNat_lt (x : Item t) : x.toNat < 256 ^ t.width :=
  calc
    x.toNat < 2 ^ t.bits := x.isLt
    _ ≤ 2 ^ (8 * t.width) := Nat.pow_le_pow_right Nat.two_pos t.bits_le
    _ = 256 ^ t.width := Nat.pow_mul 2 8 t.width

/-- An item is read back from its bytes, bit for bit. -/
theorem decode_encode (x : Item t) : decode t x.encode = x := by
  have number : ofBigEndian x.encode = x.toNat := by
    rw [encode, ofBigEndian_bigEndian, Nat.mod_eq_of_lt x.toNat_lt]
  cases t with
  | bool =>
    have truth : (if x.toNat = 0 then 0#1 else 1#1) = x := by
      revert x
      decide
    simp only [decode, number, truth]
  | int8 | int16 | int32 | int64 | float32 | float64 | char =>
    simp only [decode, number, BitVec.ofNat_toNat, BitVec.setWidth_eq]

end Item

@[simp] theorem length_encodeAll (xs : List (Item t)) :
    (encodeAll xs).length = xs.length * t.width := by
  induction xs with
  | nil => simp [encodeAll]
  | cons x xs ih =>
    rw [encodeAll] at ih
    rw [encodeAll, List.flatMap_cons, List.length_append, ih, Item.length_encode, List.length_cons,
      Nat.succ_mul, Nat.add_comm]

theorem encodeAll_append (xs ys : List (Item t)) :
    encodeAll (xs ++ ys) = encodeAll xs ++ encodeAll ys :=
  List.flatMap_append

theorem decodeMany_encodeAll (xs : List (Item t)) (bs : List UInt8) :
    decodeMany t xs.length (encodeAll xs ++ bs) = xs := by
  induction xs with
  | nil => rfl
  | cons x xs ih =>
    have first : encodeAll (x :: xs) ++ bs = x.encode ++ (encodeAll xs ++ bs) := by
      simp [encodeAll]
    rw [List.length_cons, decodeMany, first, List.take_left' x.length_encode,
      List.drop_left' x.length_encode, Item.decode_encode, ih]

end WireView
