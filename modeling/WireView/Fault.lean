import WireView.IndexRange
import WireView.Item.Kind

/-!
# Refusals and breaches

A call can fail in two ways. A *refusal* turns a request down before anything happens: a
malformed range, a slice that does not fit, items of the wrong type. A *breach* is a misuse of a
view that its caller was bound to avoid, such as an index past its end. Every text in which a
failure is reported is written here.
-/

namespace WireView

/-- Which of the two operands of a local routine a range belongs to. -/
inductive Side where
  | source
  | destination
  deriving DecidableEq

def Side.name : Side → String
  | source => "source"
  | destination => "destination"

inductive Axis where
  | array
  | matrixRow
  | matrixColumn
  | sharedArray
  | objectArray
  deriving DecidableEq

def Axis.name : Axis → String
  | array => "array"
  | matrixRow => "matrix row"
  | matrixColumn => "matrix column"
  | sharedArray => "shared array"
  | objectArray => "object array"

/-- Why a list of objects has no encoding. -/
inductive Unwritable where
  | rejected (reason : String)
  | oversize (bytes : Nat)
  deriving DecidableEq

def Unwritable.message : Unwritable → String
  | rejected reason => reason
  | oversize bytes => toString bytes ++ " byte payload"

/-- Why bytes are not the encoding of a list of objects. -/
inductive Unreadable where
  | endOfBytes
  | shortText
  | badTruth (byte : Nat)
  | badPresence (byte : Nat)
  | badCharacter
  | badVariant (index variants : Nat)
  | badSequence (start length : Nat)
  | cutSequence (start : Nat)
  deriving DecidableEq

def Unreadable.message : Unreadable → String
  | endOfBytes => "io error: unexpected end of file"
  | shortText => "io error: "
  | badTruth byte => "invalid u8 while decoding bool, expected 0 or 1, found " ++ toString byte
  | badPresence byte => "tag for enum is not valid, found " ++ toString byte
  | badCharacter => "char is not valid"
  | badVariant index variants =>
    "invalid value: integer `" ++ toString index ++ "`, expected variant index 0 <= i < "
      ++ toString variants
  | badSequence start length =>
    "string is not valid utf8: invalid utf-8 sequence of " ++ toString length
      ++ " bytes from index " ++ toString start
  | cutSequence start =>
    "string is not valid utf8: incomplete utf-8 byte sequence from index " ++ toString start

/-- Why a request was turned down. -/
inductive Refusal where
  | malformedRange (lower upper stride : Int)
  | misfit (side : Option Side) (axis : Axis) (range : IndexRange) (extent : Nat)
  | wrongShape (extent rows columns : Nat)
  | unequalBlocks (source destination : Nat × Nat)
  | wrongKind (expected found : ItemKind)
  | nestedFold
  | undefinedOperator
  | unwritable (cause : Unwritable)
  | unreadable (cause : Unreadable)
  deriving DecidableEq

namespace Refusal

def shapeText (shape : Nat × Nat) : String :=
  "(" ++ toString shape.1 ++ ", " ++ toString shape.2 ++ ")"

def message : Refusal → String
  | malformedRange lower upper stride =>
    "invalid range: lower=" ++ toString lower ++ ", upper=" ++ toString upper ++ ", stride="
      ++ toString stride
  | misfit side axis range extent =>
    (side.elim "" fun s => s.name ++ " ") ++ axis.name ++ " " ++ range.text
      ++ " does not fit storage extent " ++ toString extent
  | wrongShape extent rows columns =>
    "matrix storage of " ++ toString extent ++ " items cannot hold " ++ toString rows ++ "x"
      ++ toString columns
  | unequalBlocks source destination =>
    "patch shape mismatch: " ++ shapeText source ++ " vs " ++ shapeText destination
  | wrongKind expected found =>
    "type mismatch: expected " ++ expected.name ++ ", found " ++ found.name
  | nestedFold => "unsupported operation: reduction of a reduction buffer"
  | undefinedOperator => "unsupported operation: operator not defined for this item type"
  | unwritable cause => "object encoding failed: " ++ cause.message
  | unreadable cause => "object decoding failed: " ++ cause.message

end Refusal

/-- A misuse that the caller was bound to avoid. -/
inductive Breach where
  /-- A logical index past the end of a view. -/
  | index (i length : Nat)
  /-- A first item past the end of a view. -/
  | start (first length : Nat)
  /-- A logical index past the end of a range. -/
  | member (i length : Nat)
  /-- A row or column outside a matrix. -/
  | entry (row column : Nat)
  /-- A byte past the end of a message. -/
  | offset (first length : Nat)
  /-- A cell past the end of its storage. -/
  | slot (i extent : Nat)
  /-- A span of cells that starts past the end of its storage. -/
  | spanStart (first extent : Nat)
  /-- A span of cells that ends past the end of its storage. -/
  | spanEnd (stop extent : Nat)
  deriving DecidableEq

def Breach.message : Breach → String
  | index i length =>
    "index " ++ toString i ++ " out of bounds for buffer of length " ++ toString length
  | start first length =>
    "start " ++ toString first ++ " past buffer length " ++ toString length
  | member i length =>
    "logical index " ++ toString i ++ " out of bounds for range of length " ++ toString length
  | entry row column => Refusal.shapeText (row, column) ++ " out of bounds"
  | offset first length =>
    "offset " ++ toString first ++ " past message length " ++ toString length
  | slot i extent =>
    "index out of bounds: the len is " ++ toString extent ++ " but the index is " ++ toString i
  | spanStart first extent =>
    "range start index " ++ toString first ++ " out of range for slice of length "
      ++ toString extent
  | spanEnd stop extent =>
    "range end index " ++ toString stop ++ " out of range for slice of length "
      ++ toString extent

inductive Fault where
  | refused (refusal : Refusal)
  | breached (breach : Breach)
  deriving DecidableEq

namespace IndexRange

def request (lower upper stride : Int) : Except Refusal IndexRange :=
  match spanning? lower upper stride with
  | some r => .ok r
  | none => .error (.malformedRange lower upper stride)

def member (r : IndexRange) (i : Nat) : Except Breach Int :=
  match r.member? i with
  | some v => .ok v
  | none => .error (.member i r.length)

/-- The row and column at a logical index of a block, whose items are counted row by row. -/
def entry (rows columns : IndexRange) (i : Nat) : Except Breach (Int × Int) := do
  let row ← rows.member (i / columns.length)
  let column ← columns.member (i % columns.length)
  return (row, column)

def check (side : Option Side) (axis : Axis) (r : IndexRange) (extent : Nat) :
    Except Refusal Unit :=
  if r.Fits extent then .ok () else .error (.misfit side axis r extent)

end IndexRange

end WireView
