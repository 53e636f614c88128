import WireView.Memory

/-!
# Views

A view lays a sequence of logical items, counted from zero, over the cells of one bank: the
members of a range of an array, the block of a matrix cut out by a range of rows and a range of
columns and counted row by row, or a single cell. A matrix is an array read as rows of one
length. Whether a view is dense, every stride being one, decides how its cells are walked and
never which cells they are.

Two views are taken for one and the same when their identities agree: the bank, the ranges, and
whether writes are folded.
-/

namespace WireView

/-- The cells of an array read as `rows` rows of `columns` cells each. -/
structure Grid where
  storage : Region
  rows : Nat
  columns : Nat
  filled : rows * columns = storage.extent
  deriving DecidableEq

/-- A matrix over the whole of a storage; its shape has to use up all the cells. -/
def Grid.over (s : Region) (rows columns : Nat) : Except Refusal Grid :=
  if h : rows * columns = s.extent then .ok ⟨s, rows, columns, h⟩
  else .error (.wrongShape s.extent rows columns)

def Region.text (s : Region) : String :=
  "Storage \x7b len: " ++ toString s.extent ++ " \x7d"

def Grid.text (g : Grid) : String :=
  "Matrix \x7b rows: " ++ toString g.rows ++ ", cols: " ++ toString g.columns ++ " \x7d"

inductive View where
  /-- No items. -/
  | empty
  /-- The members of a range of an array. -/
  | array (storage : Region) (range : IndexRange)
  /-- The rows and columns of a matrix in two ranges. -/
  | block (grid : Grid) (rows columns : IndexRange)
  /-- An item of the view's own. -/
  | scalar (bank : Nat)
  /-- A cell shared with others. -/
  | cell (bank : Nat)
  /-- The members of a range of a shared array. -/
  | shared (storage : Region) (range : IndexRange)
  deriving DecidableEq

/-- What tells views apart when one is copied onto another. -/
structure Identity where
  bank : Option Nat
  first : Option IndexRange
  second : Option IndexRange
  folding : Bool
  deriving DecidableEq

namespace View

def length : View → Nat
  | empty => 0
  | array _ range | shared _ range => range.length
  | block _ rows columns => rows.length * columns.length
  | scalar _ | cell _ => 1

def bank? : View → Option Nat
  | empty => none
  | array s _ | shared s _ => some s.bank
  | block g _ _ => some g.storage.bank
  | scalar b | cell b => some b

def slot : View → Nat → Nat
  | array _ range, i | shared _ range, i => range.position i
  | block g rows columns, i =>
    rows.position (i / columns.length) * g.columns + columns.position (i % columns.length)
  | empty, _ | scalar _, _ | cell _, _ => 0

def locate? (v : View) (i : Nat) : Option Location :=
  if i < v.length then v.bank?.map fun b => ⟨b, v.slot i⟩ else none

/-- Every stride is one, so that a run of items is a span of adjacent cells. -/
def IsDense : View → Prop
  | array _ range | shared _ range => range.IsContiguous
  | block _ rows columns => rows.IsContiguous ∧ columns.IsContiguous
  | empty | scalar _ | cell _ => False

instance (v : View) : Decidable v.IsDense :=
  match v with
  | array _ range | shared _ range => inferInstanceAs (Decidable range.IsContiguous)
  | block _ rows columns => inferInstanceAs (Decidable (rows.IsContiguous ∧ columns.IsContiguous))
  | empty | scalar _ | cell _ => inferInstanceAs (Decidable False)

/-- The cells may be shared with others, and each is read and written on its own. -/
def IsShared : View → Prop
  | cell _ | shared _ _ => True
  | empty | array _ _ | block _ _ _ | scalar _ => False

instance (v : View) : Decidable v.IsShared :=
  match v with
  | cell _ | shared _ _ => inferInstanceAs (Decidable True)
  | empty | array _ _ | block _ _ _ | scalar _ => inferInstanceAs (Decidable False)

def identity (v : View) (folding : Bool) : Identity :=
  match v with
  | array _ range | shared _ range => ⟨v.bank?, some range, none, folding⟩
  | block _ rows columns => ⟨v.bank?, some rows, some columns, folding⟩
  | empty | scalar _ | cell _ => ⟨v.bank?, none, none, folding⟩

/-- The name of the form of storage that a view goes through. -/
def variant (v : View) : String :=
  match v with
  | empty => "empty"
  | array _ _ => if v.IsDense then "dense_array" else "strided_array"
  | block _ _ _ => if v.IsDense then "dense_matrix" else "strided_matrix"
  | scalar _ => "scalar"
  | cell _ => "shared"
  | shared _ _ => if v.IsDense then "dense_shared_array" else "strided_shared_array"

def text (v : View) (t : ItemKind) : String :=
  "Buffer \x7b variant: \"" ++ v.variant ++ "\", item_type: " ++ t.label ++ ", len: "
    ++ toString v.length ++ " \x7d"

end View

end WireView
