import WireView.Item.Float
import WireView.Object.View

/-!
# Record types

Object types with the format in which they travel, the object that stands for nothing yet, and
the fold that adds an incoming object to the stored one.
-/

namespace WireView

/-- An object type as it is stored, sent and added. -/
structure Record (α : Type) where
  format : Format α
  blank : α
  add : α → α → α

namespace Record

variable {α : Type}

/-- A word of `bits` bits in `n` bytes; addition wraps around. -/
def word (bits n : Nat) : Record (BitVec bits) := ⟨.word bits n, 0, (· + ·)⟩

def float : Record (BitVec 64) := ⟨.word 64 8, 0#64, FloatFormat.lift64 (· + ·)⟩

def truth : Record Bool := ⟨.bool, false, (· || ·)⟩

/-- A character; of two, the later code point counts. -/
def character : Record Char := ⟨.char, Char.ofNat 0, fun c d => if c ≤ d then d else c⟩

def text : Record String := ⟨.text, "", (· ++ ·)⟩

def list (r : Record α) : Record (List α) := ⟨r.format.list, [], (· ++ ·)⟩

/-- An object that may be missing; a missing one adds nothing. -/
def option (r : Record α) : Record (Option α) where
  format := r.format.option
  blank := none
  add
    | some x, some y => some (r.add x y)
    | some x, none => some x
    | none, y => y

structure Point where
  x : BitVec 32
  label : String
  deriving DecidableEq

def point : Record Point where
  format := (Format.pair (.word 32 4) .text).via (fun p => (p.x, p.label)) fun (x, label) =>
    ⟨x, label⟩
  blank := ⟨0#32, ""⟩
  add p q := ⟨p.x + q.x, p.label ++ q.label⟩

/-- A tagged position in space, the coordinates as bits of 64-bit floats. -/
structure Particle where
  id : BitVec 32
  position : BitVec 64 × BitVec 64 × BitVec 64
  tags : List String
  deriving DecidableEq

def particle : Record Particle where
  format :=
    let coordinate := Format.word 64 8
    let position := coordinate.pair (coordinate.pair coordinate)
    ((Format.word 32 4).pair (position.pair (Format.list .text))).via
      (fun p => (p.id, p.position, p.tags)) fun (id, position, tags) => ⟨id, position, tags⟩
  blank := ⟨0#32, (0#64, 0#64, 0#64), []⟩
  add p q :=
    let add := FloatFormat.lift64 (· + ·)
    let (x, y, z) := p.position
    let (x', y', z') := q.position
    ⟨p.id + q.id, (add x x', add y y', add z z'), p.tags ++ q.tags⟩

inductive Shape where
  | unit
  | pair (number : BitVec 32) (flag : Bool)
  | named (name : String)
  deriving DecidableEq

namespace Shape

def forms : Nat := 3

def write : Shape → Except Unwritable (List UInt8)
  | unit => .ok (littleEndian 4 0)
  | pair number flag =>
    (littleEndian 4 1 ++ ·) <$> (Format.pair (.word 32 4) .bool).write (number, flag)
  | named name => (littleEndian 4 2 ++ ·) <$> Format.text.write name

def read (bs : List UInt8) : Except Unreadable (Shape × List UInt8) := do
  match ← Format.readNumber 4 bs with
  | (0, rest) => return (unit, rest)
  | (1, rest) =>
    let ((number, flag), rest) ← (Format.pair (.word 32 4) .bool).read rest
    return (pair number flag, rest)
  | (2, rest) =>
    let (name, rest) ← Format.text.read rest
    return (named name, rest)
  | (index, _) => throw (.badVariant index forms)

end Shape

/-- A shape; one that is no longer the unit stays. -/
def shape : Record Shape where
  format := ⟨Shape.write, Shape.read⟩
  blank := .unit
  add
    | .unit, incoming => incoming
    | stored, _ => stored

/-- A 32-bit integer that has no encoding when it is negative. -/
def nonNegative : Record (BitVec 32) where
  format :=
    { write := fun x =>
        if x.msb then .error (.rejected ("negative " ++ toString x.toInt))
        else (Format.word 32 4).write x
      read := (Format.word 32 4).read }
  blank := 0#32
  add := (· + ·)

end Record

end WireView
