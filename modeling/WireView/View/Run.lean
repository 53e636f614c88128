import WireView.View

/-!
# Runs

Long transfers do not look up every item by its index. They split the items `start, …` of a view
into runs of equally spaced slots: one run for a slice of an array, one for each row that a block
touches. A run of plain storage is entered as a whole, as one span when the view is dense and in
steps otherwise; the slots of shared storage are entered one by one.
-/

namespace WireView

/-- The slots `first, first + stride, …`, `count` of them. -/
structure Run where
  first : Nat
  stride : Nat
  count : Nat
  deriving DecidableEq

namespace Run

def slots (r : Run) : List Nat := List.range' r.first r.count r.stride

/-- The adjacent slots from the first on, all of which have to lie within the storage. -/
def span (r : Run) (extent : Nat) : Except Breach (List Nat) :=
  if r.first + r.count ≤ extent then .ok (List.range' r.first r.count)
  else .error (.spanEnd (r.first + r.count) extent)

/-- The slots of the run up to the end of the storage, which must not lie before the first. -/
def steps (r : Run) (extent : Nat) : Except Breach (List Nat) :=
  if r.first ≤ extent then .ok (r.slots.filter (· < extent))
  else .error (.spanStart r.first extent)

end Run

namespace View

def rowHead (g : Grid) (rows columns : IndexRange) (row : Nat) : Nat :=
  rows.position row * g.columns + columns.position 0

/-- The items `i, …, stop - 1` of a block, one run for each row they lie in. -/
def blockRuns (g : Grid) (rows columns : IndexRange) (i stop : Nat) : List Run :=
  if _h : i < stop then
    let column := i % columns.length
    let count := min (columns.length - column) (stop - i)
    ⟨rowHead g rows columns (i / columns.length) + column * columns.stride, columns.stride, count⟩
      :: blockRuns g rows columns (i + count) stop
  else []
termination_by stop - i
decreasing_by
  have := Nat.mod_lt i columns.length_pos
  omega

def runs (v : View) (start n : Nat) : List Run :=
  match v with
  | empty => []
  | array _ range | shared _ range => [⟨range.position start, range.stride, n⟩]
  | block g rows columns => blockRuns g rows columns start (start + n)
  | scalar _ | cell _ => [⟨0, 1, 1⟩]

def slotsOf (v : View) (r : Run) (extent : Nat) : Except Breach (List Nat) :=
  match v with
  | empty | scalar _ | cell _ | shared _ _ => .ok r.slots
  | array _ _ | block _ _ _ => if v.IsDense then r.span extent else r.steps extent

def enter {t : ItemKind} (v : View) (r : Run) : Action t (List Location) :=
  match v.bank? with
  | none => pure []
  | some b => do
    let slots ← liftStep (v.slotsOf r (← extentOf b))
    return slots.map (Location.mk b)

/-- Goes through the cells of some runs of a view, handing on a state from run to run. -/
def throughRuns {t : ItemKind} {σ : Type} (v : View)
    (visit : List Location → σ → Action t σ) : List Run → σ → Action t σ
  | [], s => pure s
  | r :: rs, s => do
    let cells ← v.enter r
    let s ← visit cells s
    v.throughRuns visit rs s

end View

end WireView
