import WireView.Store

/-!
# Views whose item type is known at run time

A peer that learns the item type from the head of a message cannot fix it beforehand. A typed
view carries its item type, and so does a value; calls on them first check that the types agree,
then that the operator is defined, and only then touch the store.
-/

namespace WireView

/-- An item together with its type. -/
structure TypedItem where
  type : ItemKind
  item : Item type

/-- The item of a value, refused unless it is of the expected type. -/
def TypedItem.itemAs (v : TypedItem) (t : ItemKind) : Except Refusal (Item t) :=
  if h : v.type = t then .ok (h ▸ v.item) else .error (.wrongKind t v.type)

/-- A view of items of a type known at run time. -/
structure TypedView where
  type : ItemKind
  view : View
  deriving DecidableEq

/-- The fold of an operator for one type, refused where the table has none. -/
def Operators.find (operators : Operators) (t : ItemKind) (op : Operator) :
    Except Refusal (Fold (Item t)) :=
  match (operators.get t).get? op with
  | some f => .ok f
  | none => .error .undefinedOperator

namespace TypedView

def length (v : TypedView) : Nat := v.view.length

def endpoint (v : TypedView) : Endpoint v.type := ⟨v.view, none⟩

def viewAs (v : TypedView) (t : ItemKind) : Except Refusal View :=
  if v.type = t then .ok v.view else .error (.wrongKind t v.type)

def get (v : TypedView) (i : Nat) : Call TypedItem :=
  TypedItem.mk v.type <$> .act v.type (v.endpoint.get i)

def put (v : TypedView) (i : Nat) (x : TypedItem) : Call Unit := do
  let x ← .require (x.itemAs v.type)
  .act v.type (v.endpoint.put i x)

def fill (v : TypedView) : Option TypedItem → Call Unit
  | none => .act v.type (v.endpoint.fill none)
  | some x => do
    let x ← .require (x.itemAs v.type)
    .act v.type (v.endpoint.fill (some x))

def pack (v : TypedView) (start : Nat) (room : Option Nat) : Call Packed :=
  .act v.type (v.endpoint.pack start room)

def unpack (v : TypedView) (start most : Nat) (window : List UInt8) : Call Taken :=
  .act v.type (v.endpoint.unpack start most window)

def absorb (v source : TypedView) : Call Unit := do
  let s ← .require (source.viewAs v.type)
  .act v.type (v.endpoint.absorb ⟨s, none⟩)

def absorbWith (v source : TypedView) (op : Operator) (operators : Operators) : Call Unit := do
  let s ← .require (source.viewAs v.type)
  let f ← .require (operators.find v.type op)
  .act v.type (Endpoint.absorb ⟨v.view, some f⟩ ⟨s, none⟩)

def unpackWith (v : TypedView) (start most : Nat) (window : List UInt8) (op : Operator)
    (operators : Operators) : Call Taken := do
  let f ← .require (operators.find v.type op)
  .act v.type (Endpoint.unpack ⟨v.view, some f⟩ start most window)

def text (v : TypedView) : String := v.type.label ++ "(" ++ v.view.text v.type ++ ")"

end TypedView

end WireView
