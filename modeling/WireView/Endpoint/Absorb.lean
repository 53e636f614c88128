import WireView.Endpoint

/-!
# Copying between views

A copy takes the items of one view to another in order, as many as both have, and reads each item
just before its destination is written; so where the two views overlap, a later read sees what an
earlier write left. Slices of arrays, and blocks of one shape, are walked side by side, in spans
where both sides have unit stride. Any other pair is copied item by item. Copying a view onto
itself does nothing.
-/

namespace WireView

variable {t : ItemKind}

def writePairs (fold : Option (Fold (Item t))) : List (Location × Location) → Action t Unit
  | [] => pure ()
  | (source, destination) :: rest => do
    writePlain fold destination (← load source)
    writePairs fold rest

/-- Writes run after run, pair by pair: two runs of unit stride as spans, others cell by cell. -/
def writeRuns (fold : Option (Fold (Item t))) (source target : Nat) :
    List (Run × Run) → Action t Unit
  | [] => pure ()
  | (r, s) :: rest => do
    if r.stride = 1 ∧ s.stride = 1 then
      let froms ← liftStep (r.span (← extentOf source))
      let tos ← liftStep (s.span (← extentOf target))
      writePairs fold ((froms.map (Location.mk source)).zip (tos.map (Location.mk target)))
    else
      writePairs fold
        ((r.slots.map (Location.mk source)).zip (s.slots.map (Location.mk target)))
    writeRuns fold source target rest

namespace View

def rangeRun (range : IndexRange) (n : Nat) : Run := ⟨range.position 0, range.stride, n⟩

def rowRuns (g : Grid) (rows columns : IndexRange) : List Run :=
  (List.range rows.length).map fun row =>
    ⟨rowHead g rows columns row, columns.stride, columns.length⟩

end View

def writeBlocks (fold : Option (Fold (Item t))) (source : Grid) (rows columns : IndexRange)
    (destination : Grid) (rows' columns' : IndexRange) : Action t Unit :=
  writeRuns fold source.storage.bank destination.storage.bank
    ((View.rowRuns source rows columns).zip (View.rowRuns destination rows' columns'))

/-- The walk over the runs of both views, for two slices of arrays and for two blocks of
one shape. -/
def bulk? (fold : Option (Fold (Item t))) (source destination : View) :
    Option (Action t Unit) :=
  match source, destination with
  | .array s range, .array d range' =>
    let n := min range.length range'.length
    some (writeRuns fold s.bank d.bank [(View.rangeRun range n, View.rangeRun range' n)])
  | .block g rows columns, .block g' rows' columns' =>
    if rows.length = rows'.length ∧ columns.length = columns'.length then
      some (writeBlocks fold g rows columns g' rows' columns')
    else none
  | _, _ => none

namespace Endpoint

/-- Reads each item of the source by its index and puts it at the same index here. -/
def absorbItems (p source : Endpoint t) : Action t Unit :=
  (List.range (min source.length p.length)).forM fun i => do
    p.put i (← source.get i)

/-- Copies the items of the source to this endpoint, or folds them in. -/
def absorb (p source : Endpoint t) : Action t Unit :=
  if source.identity = p.identity then pure ()
  else
    match bulk? p.fold source.view p.view with
    | some walk => walk
    | none => p.absorbItems source

end Endpoint

end WireView
