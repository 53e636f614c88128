import Mathlib.Data.List.Induction
import WireView.Proofs.Bytes

/-!
# The wire format, both ways

Items that are written in bytes are read back bit for bit, with no byte left over. Bytes that are
read as items and written again come back as well, up to the end of the last whole item, but for
one thing: a truth value may be read from any byte and is written as zero or one. So the bytes of
some items tell which items they are.
-/

namespace WireView

variable {t : ItemKind}

theorem ofBigEndian_concat (bs : List UInt8) (b : UInt8) :
    ofBigEndian (bs ++ [b]) = ofBigEndian bs * 256 + b.toNat := by
  simp only [ofBigEndian, List.foldl_append, List.foldl_cons, List.foldl_nil]

theorem ofBigEndian_lt (bs : List UInt8) : ofBigEndian bs < 256 ^ bs.length := by
  induction bs using List.reverseRecOn with
  | nil => exact Nat.one_pos
  | append_singleton bs b ih =>
    have last : b.toNat < 256 := b.toNat_lt
    have more : (ofBigEndian bs + 1) * 256 ≤ 256 ^ bs.length * 256 := Nat.mul_le_mul_right _ ih
    rw [ofBigEndian_concat, List.length_append, List.length_singleton, Nat.pow_succ]
    omega

/-- A number gives back the bytes that it was read from. -/
theorem bigEndian_ofBigEndian (bs : List UInt8) : bigEndian bs.length (ofBigEndian bs) = bs := by
  induction bs using List.reverseRecOn with
  | nil => rfl
  | append_singleton bs b ih =>
    have last : b.toNat < 256 := b.toNat_lt
    have front : (ofBigEndian bs * 256 + b.toNat) / 256 = ofBigEndian bs := by omega
    have back : UInt8.ofNat (ofBigEndian bs * 256 + b.toNat) = b := by
      apply UInt8.toNat_inj.mp
      rw [UInt8.toNat_ofNat']
      omega
    rw [ofBigEndian_concat, List.length_append, List.length_singleton, bigEndian, front, back, ih]

/-- The bits of an item fill its bytes, unless it is a truth value. -/
theorem ItemKind.two_pow_bits (noTruth : t ≠ .bool) : 2 ^ t.bits = 256 ^ t.width := by
  cases t with
  | bool => exact absurd rfl noTruth
  | int8 | int16 | int32 | int64 | float32 | float64 | char => decide

/-- What becomes of a byte that is read as part of an item and written again. -/
def rewritten (t : ItemKind) (b : UInt8) : UInt8 := if t = .bool ∧ b ≠ 0 then 1 else b

theorem map_rewritten (noTruth : t ≠ .bool) (bs : List UInt8) : bs.map (rewritten t) = bs := by
  have same : rewritten t = id := funext fun b => if_neg fun h => noTruth h.1
  rw [same, List.map_id]

namespace Item

/-- The byte of a truth value is written anew. -/
theorem encode_decode_bool (b : UInt8) :
    (decode .bool [b]).encode = [rewritten .bool b] := by
  have number : ofBigEndian [b] = b.toNat := Nat.zero_add _
  rcases eq_or_ne b 0 with rfl | some
  · decide
  · have positive : b.toNat ≠ 0 := fun h => some (UInt8.toNat_inj.mp h)
    have truth : decode .bool [b] = 1#1 := by simp only [decode, number, if_neg positive]
    rw [truth, rewritten, if_pos ⟨rfl, some⟩]
    decide

theorem encode_decode {bs : List UInt8} (size : bs.length = t.width) :
    (decode t bs).encode = bs.map (rewritten t) := by
  rcases eq_or_ne t .bool with rfl | noTruth
  · obtain ⟨b, rfl⟩ := List.length_eq_one_iff.mp size
    exact encode_decode_bool b
  · have small : ofBigEndian bs < 2 ^ t.bits := by
      rw [ItemKind.two_pow_bits noTruth, ← size]
      exact ofBigEndian_lt bs
    have bits : decode t bs = BitVec.ofNat t.bits (ofBigEndian bs) := by
      cases t with
      | bool => exact absurd rfl noTruth
      | int8 | int16 | int32 | int64 | float32 | float64 | char => rfl
    calc
      (decode t bs).encode = bigEndian t.width (ofBigEndian bs) := by
        rw [encode, bits, BitVec.toNat_ofNat, Nat.mod_eq_of_lt small]
      _ = bs := by rw [← size, bigEndian_ofBigEndian]
      _ = bs.map (rewritten t) := (map_rewritten noTruth bs).symm

end Item

/-- Whole items that are read and written again give back their bytes. -/
theorem encodeAll_decodeMany {n : Nat} {bs : List UInt8} (enough : n * t.width ≤ bs.length) :
    encodeAll (decodeMany t n bs) = (bs.take (n * t.width)).map (rewritten t) := by
  induction n generalizing bs with
  | zero => simp [decodeMany, encodeAll]
  | succ n ih =>
    rw [Nat.succ_mul] at enough
    have first : (bs.take t.width).length = t.width := List.length_take_of_le (by omega)
    have rest : n * t.width ≤ (bs.drop t.width).length := by
      rw [List.length_drop]
      omega
    have item := Item.encode_decode first
    calc
      encodeAll (decodeMany t (n + 1) bs) = (Item.decode t (bs.take t.width)).encode ++
          encodeAll (decodeMany t n (bs.drop t.width)) := rfl
      _ = (bs.take ((n + 1) * t.width)).map (rewritten t) := by
        rw [item, ih rest, ← List.map_append, ← List.take_add, Nat.succ_mul, Nat.add_comm]

/-- The bytes of a string up to the end of its last whole item. -/
structure IsWholePart (t : ItemKind) (whole bs : List UInt8) : Prop where
  front : whole <+: bs
  divides : t.width ∣ whole.length
  longest : ∀ front, front <+: bs → t.width ∣ front.length → front.length ≤ whole.length

theorem isWholePart_take (t : ItemKind) (bs : List UInt8) :
    IsWholePart t (bs.take (wholeItems t bs.length * t.width)) bs := by
  have size : (bs.take (wholeItems t bs.length * t.width)).length =
      wholeItems t bs.length * t.width :=
    List.length_take_of_le (wholeItems_mul_le t bs.length)
  constructor
  · exact List.take_prefix _ bs
  · rw [size]
    exact Nat.dvd_mul_left _ _
  · rintro front short ⟨n, count⟩
    have fewer : n ≤ wholeItems t bs.length := by
      rw [le_wholeItems, Nat.mul_comm, ← count]
      exact short.length_le
    rw [size, count, Nat.mul_comm]
    exact Nat.mul_le_mul_right _ fewer

theorem decodeAll_encodeAll (xs : List (Item t)) : decodeAll t (encodeAll xs) = (xs, []) := by
  have count : wholeItems t (encodeAll xs).length = xs.length := by
    rw [length_encodeAll]
    exact Nat.mul_div_cancel _ t.width_pos
  have items := decodeMany_encodeAll xs []
  rw [List.append_nil] at items
  rw [decodeAll, count, items, List.drop_of_length_le (Nat.le_of_eq (length_encodeAll xs))]

/-- The format of the wire loses nothing. Items are read back from their bytes bit for bit, and
no byte is left. Any string of bytes is read as the items of its whole part; these are written as
the very bytes of that part, except that of truth values each byte but zero comes back as one.
So different items have different bytes. -/
theorem wire_round_trip (t : ItemKind) :
    (∀ xs : List (Item t), decodeAll t (encodeAll xs) = (xs, [])) ∧
    (∀ bs : List UInt8, ∃ xs whole rest, decodeAll t bs = (xs, rest) ∧ bs = whole ++ rest ∧
      IsWholePart t whole bs ∧
      encodeAll xs = whole.map (rewritten t)) ∧
    ∀ xs ys : List (Item t), encodeAll xs = encodeAll ys → xs = ys := by
  refine ⟨decodeAll_encodeAll, ?_, ?_⟩
  · intro bs
    have enough := wholeItems_mul_le t bs.length
    exact ⟨_, _, _, rfl, (List.take_append_drop _ bs).symm, isWholePart_take t bs,
      encodeAll_decodeMany enough⟩
  · intro xs ys same
    have read := congrArg (decodeAll t) same
    rw [decodeAll_encodeAll, decodeAll_encodeAll] at read
    exact congrArg Prod.fst read

example : encodeAll (decodeAll .bool [0, 7, 1]).1 = [0, 1, 1] := by decide

end WireView
