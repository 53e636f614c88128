import WireView.Object.Utf8

/-!
# Formats of objects

A format writes a value as bytes and reads it back from the front of some bytes. Numbers have a
fixed width and their least significant byte first; the length of a text or list is written
ahead of it in eight bytes, and the elements of a list are read one by one, so that a length too
large shows where the bytes end. Nothing in the bytes tells which format they have.
-/

namespace WireView

structure Format (α : Type) where
  write : α → Except Unwritable (List UInt8)
  read : List UInt8 → Except Unreadable (α × List UInt8)

/-- The low `n` bytes of a number, the least significant one first. -/
def littleEndian : Nat → Nat → List UInt8
  | 0, _ => []
  | n + 1, x => UInt8.ofNat x :: littleEndian n (x / 256)

def ofLittleEndian (bs : List UInt8) : Nat := bs.foldr (fun b n => b.toNat + 256 * n) 0

namespace Format

variable {α β : Type}

def readNumber (n : Nat) (bs : List UInt8) : Except Unreadable (Nat × List UInt8) :=
  if n ≤ bs.length then .ok (ofLittleEndian (bs.take n), bs.drop n) else .error .endOfBytes

def word (bits n : Nat) : Format (BitVec bits) where
  write x := .ok (littleEndian n x.toNat)
  read bs := do
    let (x, rest) ← readNumber n bs
    return (BitVec.ofNat bits x, rest)

/-- A truth value as a byte that is zero or one. -/
def bool : Format Bool where
  write b := .ok [if b then 1 else 0]
  read bs := do
    match ← readNumber 1 bs with
    | (0, rest) => return (false, rest)
    | (1, rest) => return (true, rest)
    | (x, _) => throw (.badTruth x)

def char : Format Char where
  write c := .ok (String.utf8EncodeChar c)
  read
    | [] => .error .endOfBytes
    | b :: bs =>
      match Utf8.character b bs with
      | .ok (c, owed) => .ok (c, bs.drop owed)
      | .error _ => .error .badCharacter

/-- A text as the number of its UTF-8 bytes, and these. -/
def text : Format String where
  write s := .ok (littleEndian 8 (Utf8.encode s).length ++ Utf8.encode s)
  read bs := do
    let (n, rest) ← readNumber 8 bs
    if rest.length < n then
      throw .shortText
    return (← Utf8.decode (rest.take n), rest.drop n)

def readMany (f : Format α) : Nat → List UInt8 → Except Unreadable (List α × List UInt8)
  | 0, bs => .ok ([], bs)
  | n + 1, bs => do
    let (x, rest) ← f.read bs
    let (xs, rest) ← readMany f n rest
    return (x :: xs, rest)

def list (f : Format α) : Format (List α) where
  write xs := do
    let parts ← xs.mapM f.write
    return littleEndian 8 xs.length ++ parts.flatten
  read bs := do
    let (n, rest) ← readNumber 8 bs
    f.readMany n rest

/-- A value that may be missing: a byte that is zero, or one and the value. -/
def option (f : Format α) : Format (Option α) where
  write
    | none => .ok [0]
    | some x => (1 :: ·) <$> f.write x
  read bs := do
    match ← readNumber 1 bs with
    | (0, rest) => return (none, rest)
    | (1, rest) =>
      let (x, rest) ← f.read rest
      return (some x, rest)
    | (x, _) => throw (.badPresence x)

def pair (f : Format α) (g : Format β) : Format (α × β) where
  write := fun (x, y) => do return (← f.write x) ++ (← g.write y)
  read bs := do
    let (x, rest) ← f.read bs
    let (y, rest) ← g.read rest
    return ((x, y), rest)

/-- A type written as another that holds the same. -/
def via (f : Format α) (forth : β → α) (back : α → β) : Format β where
  write y := f.write (forth y)
  read bs := do
    let (x, rest) ← f.read bs
    return (back x, rest)

end Format

end WireView
