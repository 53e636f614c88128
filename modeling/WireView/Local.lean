import WireView.Endpoint.Absorb

/-!
# Local copies and reductions

These routines combine two arrays, or two blocks, without making views. Ranges are checked in a
fixed order, those of the source first, and nothing is written unless all of them fit. An index past
the end of an array is a breach, which ranges that fit rule out.
-/

namespace WireView

variable {t : ItemKind}

/-- What may be done to a storage by a call that can also be refused. -/
abbrev Routine (σ β : Type) := EStateM Fault σ β

namespace Routine

/-- An action as a routine that is never refused. -/
def act {β : Type} (action : Action t β) : Routine (Memory t) β := fun m =>
  match action m with
  | .ok x m => .ok x m
  | .error b m => .error (.breached b) m

def require {σ β : Type} (request : Except Refusal β) : Routine σ β := fun s =>
  match request with
  | .ok x => .ok x s
  | .error e => .error (.refused e) s

end Routine

namespace Local

section arrays

variable (source : Array (Item t)) (r r' : IndexRange)

def itemAt (items : Array (Item t)) (i : Nat) : Routine (Array (Item t)) (Item t) :=
  match items[i]? with
  | some x => pure x
  | none => throw (.breached (.slot i items.size))

def putItem (i : Nat) (x : Item t) : Routine (Array (Item t)) Unit := do
  let items ← get
  if i < items.size then
    set (items.setIfInBounds i x)
  else
    throw (.breached (.slot i items.size))

def foldMember (f : Fold (Item t)) (j : Nat) : Routine (Array (Item t)) Unit := do
  let y ← itemAt (← get) (r'.position j)
  let x ← itemAt source (r.position j)
  putItem (r'.position j) (f.apply y x)

def copyMember (j : Nat) : Routine (Array (Item t)) Unit := do
  let x ← itemAt source (r.position j)
  putItem (r'.position j) x

/-- Checks both ranges and then sets members of the destination, as many as both ranges have. The
number of members is the result. -/
def setMembers (setMember : Nat → Routine (Array (Item t)) Unit) :
    Routine (Array (Item t)) Nat := do
  let destination ← get
  .require (r.check (some .source) .array source.size)
  .require (r'.check (some .destination) .array destination.size)
  let n := min r.length r'.length
  (List.range n).forM setMember
  return n

def foldArray (f : Fold (Item t)) : Routine (Array (Item t)) Nat :=
  setMembers source r r' (foldMember source r r' f)

def copyArray : Routine (Array (Item t)) Nat :=
  setMembers source r r' (copyMember source r r')

end arrays

/-- Folds a block of one matrix into a block of the same shape, possibly of the same storage. The
number of items is the result. -/
def foldBlock (f : Fold (Item t)) (source : Grid) (rows columns : IndexRange)
    (destination : Grid) (rows' columns' : IndexRange) : Routine (Memory t) Nat := do
  .require do
    rows.check (some .source) .matrixRow source.rows
    columns.check (some .source) .matrixColumn source.columns
    rows'.check (some .destination) .matrixRow destination.rows
    columns'.check (some .destination) .matrixColumn destination.columns
    if rows.length ≠ rows'.length ∨ columns.length ≠ columns'.length then
      throw (.unequalBlocks (rows.length, columns.length) (rows'.length, columns'.length))
  .act (writeBlocks (some f) source rows columns destination rows' columns')
  return rows.length * columns.length

end Local

end WireView
