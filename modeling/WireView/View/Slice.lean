import WireView.View

/-!
# Making views

A view is made over the storage or matrix of a caller. Every requested range is checked against
the extent of its axis, and the first that does not fit is the reason of the refusal; a request
for several views is turned down whole. A whole view of nothing is the empty view.
-/

namespace WireView

namespace View

def ofArray (s : Region) : View :=
  match IndexRange.whole? s.extent with
  | some range => array s range
  | none => empty

def slice (s : Region) (range : IndexRange) : Except Refusal View := do
  range.check none .array s.extent
  return array s range

def slices (s : Region) (ranges : List IndexRange) : Except Refusal (List View) :=
  ranges.mapM (slice s)

def ofMatrix (g : Grid) : View :=
  match IndexRange.whole? g.rows, IndexRange.whole? g.columns with
  | some rows, some columns => block g rows columns
  | _, _ => empty

def rowBand (g : Grid) (rows : IndexRange) : Except Refusal View := do
  rows.check none .matrixRow g.rows
  match IndexRange.whole? g.columns with
  | some columns => return block g rows columns
  | none => return empty

def columnBand (g : Grid) (columns : IndexRange) : Except Refusal View := do
  columns.check none .matrixColumn g.columns
  match IndexRange.whole? g.rows with
  | some rows => return block g rows columns
  | none => return empty

def cutBlock (g : Grid) (rows columns : IndexRange) : Except Refusal View := do
  rows.check none .matrixRow g.rows
  columns.check none .matrixColumn g.columns
  return block g rows columns

def rowBands (g : Grid) (rows : List IndexRange) : Except Refusal (List View) :=
  rows.mapM (rowBand g)

def columnBands (g : Grid) (columns : List IndexRange) : Except Refusal (List View) :=
  columns.mapM (columnBand g)

/-- One block for each pair of ranges, the ranges of columns varying fastest. -/
def cutBlocks (g : Grid) (rows columns : List IndexRange) : Except Refusal (List View) :=
  List.flatten <$> rows.mapM fun r => columns.mapM fun c => cutBlock g r c

def ofShared (s : Region) : View :=
  match IndexRange.whole? s.extent with
  | some range => shared s range
  | none => empty

def sharedSlice (s : Region) (range : IndexRange) : Except Refusal View := do
  range.check none .sharedArray s.extent
  return shared s range

def sharedSlices (s : Region) (ranges : List IndexRange) : Except Refusal (List View) :=
  ranges.mapM (sharedSlice s)

end View

def Grid.entry {t : ItemKind} (g : Grid) (row column : Nat) : Action t (Item t) :=
  if row < g.rows ∧ column < g.columns then load ⟨g.storage.bank, row * g.columns + column⟩
  else throw (.entry row column)

/-- A scalar view of a new item, zero unless given. -/
def Memory.allotScalar {t : ItemKind} (m : Memory t) (initial : Option (Item t)) :
    View × Memory t :=
  let (s, m) := m.allot #[initial.getD Item.zero]
  (.scalar s.bank, m)

end WireView
