import WireView.Memory
import WireView.Item.Operator

/-!
# Operations on one cell

A write to a cell replaces its item, or folds an incoming item into it. Plain storage has one
writer, so a fold reads, combines and writes. A shared cell offers single steps only: read,
write, swap, and a compare-and-set that writes if the bits of the cell are still those expected.
Its fold is made of these, and starts over from the present item where the compare-and-set finds
that the cell has changed.
-/

namespace WireView

variable {t : ItemKind}

/-- Reads a cell, combines, and writes the cell; the combined item is the result. -/
def foldInto (f : Fold (Item t)) (l : Location) (x : Item t) : Action t (Item t) := do
  let y := f.apply (← load l) x
  store l y
  return y

def writePlain (fold : Option (Fold (Item t))) (l : Location) (x : Item t) : Action t Unit :=
  match fold with
  | none => store l x
  | some f => do
    let _ ← foldInto f l x

/-- Writes a cell; the item it held is the result. -/
def swap (l : Location) (x : Item t) : Action t (Item t) := do
  let y ← load l
  store l x
  return y

/-- Writes a cell if it holds the expected bits, and tells whether it did. -/
def setIf (l : Location) (expected x : Item t) : Action t Bool := do
  if (← load l) = expected then
    store l x
    return true
  return false

/-- Folds into a shared cell by compare-and-set; the stored item is the result. -/
def foldIntoShared (f : Fold (Item t)) (l : Location) (x : Item t) : Action t (Item t) := do
  let y ← load l
  let z := f.apply y x
  if ← setIf l y z then
    return z
  foldInto f l x

def writeShared (fold : Option (Fold (Item t))) (l : Location) (x : Item t) : Action t Unit :=
  match fold with
  | none => store l x
  | some f => do
    let _ ← foldIntoShared f l x

def snapshot (b : Nat) : Action t (List (Item t)) := fun m => .ok (m.bank b).toList m

def cellText (x : Item t) : String := "SharedCell(" ++ x.text ++ ")"

def arrayText (xs : List (Item t)) : String :=
  "[" ++ ", ".intercalate (xs.map Item.text) ++ "]"

end WireView
