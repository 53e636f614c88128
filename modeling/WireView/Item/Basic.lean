import WireView.Item.Kind

/-!
# Items and their bytes

An item is the bit pattern of a value. Its encoding has the width of its type, the most
significant byte first and no tag, so both ends of a transfer have to agree on the type. A truth
value takes a whole byte: it is written as zero or one, and any byte but zero reads as true.

A string of bytes that ends inside an item holds only the whole items before it.
-/

namespace WireView

/-- The low `n` bytes of a number, the most significant one first. -/
def bigEndian : Nat → Nat → List UInt8
  | 0, _ => []
  | n + 1, x => bigEndian n (x / 256) ++ [UInt8.ofNat x]

def ofBigEndian (bs : List UInt8) : Nat := bs.foldl (fun n b => n * 256 + b.toNat) 0

@[simp] theorem length_bigEndian (n x : Nat) : (bigEndian n x).length = n := by
  induction n generalizing x with
  | zero => rfl
  | succ n ih => simp [bigEndian, ih]

abbrev Item (t : ItemKind) := BitVec t.bits

namespace Item

variable {t : ItemKind}

/-- What a cell holds before anything is written: zero, or false. -/
def zero : Item t := 0

/-- The number an item stands for. Integers are in two's complement, a character is its code
unit, and a truth value is zero or one; for a float it is the number of its bit pattern. -/
def value (x : Item t) : Int :=
  match t with
  | .int8 | .int16 | .int32 | .int64 => BitVec.toInt x
  | .bool | .char | .float32 | .float64 => BitVec.toNat x

/-- The item of a number, modulo the range of its type. -/
def ofInt (t : ItemKind) (v : Int) : Item t := BitVec.ofInt t.bits v

def ofBool (b : Bool) : Item .bool := BitVec.ofBool b

def isTrue (x : Item .bool) : Bool := x != 0#1

def encode (x : Item t) : List UInt8 := bigEndian t.width x.toNat

def decode (t : ItemKind) (bs : List UInt8) : Item t :=
  match t with
  | .bool => if ofBigEndian bs = 0 then 0#1 else 1#1
  | t => BitVec.ofNat t.bits (ofBigEndian bs)

@[simp] theorem length_encode (x : Item t) : x.encode.length = t.width := length_bigEndian _ _

def text (x : Item t) : String :=
  match t with
  | .bool => if isTrue x then "true" else "false"
  | _ => toString x.value

end Item

def encodeAll {t : ItemKind} (xs : List (Item t)) : List UInt8 := xs.flatMap Item.encode

def decodeMany (t : ItemKind) : Nat → List UInt8 → List (Item t)
  | 0, _ => []
  | n + 1, bs => Item.decode t (bs.take t.width) :: decodeMany t n (bs.drop t.width)

def wholeItems (t : ItemKind) (size : Nat) : Nat := size / t.width

/-- The whole items written in bytes, and the bytes left over. -/
def decodeAll (t : ItemKind) (bs : List UInt8) : List (Item t) × List UInt8 :=
  let n := wholeItems t bs.length
  (decodeMany t n bs, bs.drop (n * t.width))

/-- Drops up to `n` whole items from the front of a window: how many, and what is left. -/
def dropItems (t : ItemKind) (n : Nat) (window : List UInt8) : Nat × List UInt8 :=
  let k := min n (wholeItems t window.length)
  (k, window.drop (k * t.width))

example : Item.encode (Item.ofInt .int16 (-2)) = [0xff, 0xfe] := by decide

example : decodeAll .bool [0, 7, 1] = ([0#1, 1#1, 1#1], []) := by decide

example : decodeAll .int16 [0, 42, 0xff] = ([42#16], [0xff]) := by decide

end WireView
