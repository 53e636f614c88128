import WireView.Item.Basic
import WireView.Object.Format
import WireView.Endpoint

/-!
# Views of objects

Objects have no fixed width, so the items of a view of objects travel as one message: the length
of the payload in four bytes, the most significant first, and the payload, in which a codec has
encoded the list of the items.

A view keeps the message once it has been encoded, and drops it when an item is written. The
receiving side gathers bytes until the announced payload is complete, decodes it at once, and
stores or folds as many items as the view has. A payload that cannot be decoded changes no item,
and the next message starts afresh after it.
-/

namespace WireView

/-- How lists of objects are turned into payloads and back. -/
structure Codec (α : Type) where
  encode : List α → Except Unwritable (List UInt8)
  decode : List UInt8 → Except Unreadable (List α)

/-- Lists in a format. Bytes after the list are of no account. -/
def Format.codec {α : Type} (f : Format α) : Codec α where
  encode := f.list.write
  decode bs := Prod.fst <$> f.list.read bs

def headerWidth : Nat := 4

/-- The longest payload whose length the header can hold. -/
def maxPayload : Nat := 0xffffffff

/-- A payload with its length in front; a payload that is too long is refused. -/
def frame (payload : List UInt8) : Except Unwritable (List UInt8) :=
  if payload.length ≤ maxPayload then
    .ok (bigEndian headerWidth payload.length ++ payload)
  else .error (.oversize payload.length)

/-- A view of the members of a range of an array of objects, or of none of them. -/
structure ObjectView (α : Type) where
  items : Array α
  range : Option IndexRange
  /-- The message of the present items, once it has been encoded. -/
  cached : Option (List UInt8) := none
  /-- The bytes of a message that is not complete. -/
  gathered : List UInt8 := []

/-- What came of a window of message bytes. -/
structure Receipt where
  /-- The number of items that a completed message brought; none while it is incomplete. -/
  outcome : Except Unreadable (Option Nat)
  rest : List UInt8

namespace ObjectView

variable {α : Type}

abbrev Step (α β : Type) := EStateM Fault (ObjectView α) β

def whole (items : Array α) : ObjectView α where
  items
  range := IndexRange.whole? items.size

def slice (items : Array α) (range : IndexRange) : Except Refusal (ObjectView α) := do
  range.check none .objectArray items.size
  return { items, range := some range }

def length (v : ObjectView α) : Nat := v.range.elim 0 IndexRange.length

def position (v : ObjectView α) (i : Nat) : Nat := v.range.elim 0 fun r => r.position i

def get (v : ObjectView α) (i : Nat) : Except Breach α :=
  if i < v.length then
    match v.items[v.position i]? with
    | some x => .ok x
    | none => .error (.slot (v.position i) v.items.size)
  else .error (.index i v.length)

def toList (v : ObjectView α) : List α :=
  (List.range v.length).filterMap fun i => v.items[v.position i]?

/-- The view with one object changed. The message of the former objects is dropped. -/
def update (v : ObjectView α) (i : Nat) (f : α → α) : ObjectView α :=
  { v with items := v.items.modify (v.position i) f, cached := none }

/-- Changes the objects from the first on, one for each element of a list, as many as there are.
The message of the former objects is dropped, even if no object changes. -/
def updateFront (v : ObjectView α) (f : α → α → α) (xs : List α) : ObjectView α :=
  let pairs := (List.range v.length).zip xs
  let items := pairs.foldl (fun items (i, x) => items.modify (v.position i) fun y => f y x) v.items
  { v with items, cached := none }

/-- What a write of one object does to the stored one, when folding with `f` or not. -/
def writing (fold : Option (α → α → α)) : α → α → α := fold.getD fun _ x => x

def put (v : ObjectView α) (fold : Option (α → α → α)) (i : Nat) (x : α) :
    Except Breach (ObjectView α) := do
  let _ ← v.get i
  return v.update i fun y => writing fold y x

def fill (v : ObjectView α) (x : α) : ObjectView α :=
  v.updateFront (fun _ y => y) (List.replicate v.length x)

def absorb (v source : ObjectView α) : ObjectView α :=
  v.updateFront (fun _ x => x) source.toList

/-- Folds the objects of another view in, one put after another, as many as both have. -/
def absorbWith (v : ObjectView α) (f : α → α → α) (source : ObjectView α) : ObjectView α :=
  ((List.range v.length).zip source.toList).foldl
    (fun v (i, x) => v.update i fun y => f y x) v

def forget (v : ObjectView α) : ObjectView α := { v with gathered := [] }

def message (codec : Codec α) (v : ObjectView α) : Except Unwritable (List UInt8) :=
  codec.encode v.toList >>= frame

/-- The message of the present objects, encoded anew only if it is not kept already. -/
def currentMessage (codec : Codec α) : Step α (List UInt8) := fun v =>
  match v.cached with
  | some bytes => .ok bytes v
  | none =>
    match v.message codec with
    | .ok bytes => .ok bytes { v with cached := some bytes }
    | .error e => .error (.refused (.unwritable e)) v

/-- The bytes of the whole message, its length included. -/
def messageLength (codec : Codec α) : Step α Nat := List.length <$> currentMessage codec

def pack (codec : Codec α) (offset : Nat) (room : Option Nat) : Step α Packed := do
  let bytes ← currentMessage codec
  if bytes.length < offset then
    throw (.breached (.offset offset bytes.length))
  let rest := bytes.drop offset
  let written := room.elim rest fun n => rest.take n
  return ⟨written.length, written⟩

def gather (gathered : List UInt8) (n : Nat) (window : List UInt8) :
    List UInt8 × List UInt8 :=
  (gathered ++ window.take n, window.drop n)

/-- Takes message bytes from a window, none beyond the end of the message. Once the message is
complete its items are stored, or folded in. -/
def accept (codec : Codec α) (fold : Option (α → α → α)) (v : ObjectView α)
    (window : List UInt8) : ObjectView α × Receipt :=
  let (gathered, window) := gather v.gathered (headerWidth - v.gathered.length) window
  if gathered.length < headerWidth then ({ v with gathered }, ⟨.ok none, window⟩)
  else
    let total := headerWidth + ofBigEndian (gathered.take headerWidth)
    let (gathered, window) := gather gathered (total - gathered.length) window
    if gathered.length < total then ({ v with gathered }, ⟨.ok none, window⟩)
    else
      match codec.decode (gathered.drop headerWidth) with
      | .error e => (v.forget, ⟨.error e, window⟩)
      | .ok xs =>
        (v.forget.updateFront (writing fold) xs, ⟨.ok (some (min v.length xs.length)), window⟩)

/-- What came of one window of a transfer: the bytes packed, and the items received if the
message was completed. -/
structure Passed where
  bytes : Nat
  items : Option Nat
  deriving DecidableEq

/-- Passes the message of a source through windows to a destination, from `offset` on, until all
`total` bytes are through. A message that cannot be decoded ends the transfer. -/
def passWindows (codec : Codec α) (fold : Option (α → α → α)) (total : Nat) :
    List Nat → Nat → EStateM Fault (ObjectView α × ObjectView α) (List Passed)
  | [], _ => pure []
  | room :: rooms, offset => fun (source, destination) =>
    if total ≤ offset then .ok [] (source, destination)
    else
      match pack codec offset (some room) source with
      | .error e source => .error e (source, destination)
      | .ok packed source =>
        let (destination, receipt) := accept codec fold destination packed.bytes
        match receipt.outcome with
        | .error e => .error (.refused (.unreadable e)) (source, destination)
        | .ok items =>
          match passWindows codec fold total rooms (offset + packed.count)
              (source, destination) with
          | .ok more s => .ok (⟨packed.count, items⟩ :: more) s
          | .error e s => .error e s

/-- Passes the whole message of the first view to the second through windows of one size. The
length of the message comes first in the result. -/
def transfer (codec : Codec α) (fold : Option (α → α → α)) (window : Nat) :
    EStateM Fault (ObjectView α × ObjectView α) (Nat × List Passed) :=
  fun (source, destination) =>
    match messageLength codec source with
    | .error e source => .error e (source, destination)
    | .ok total source =>
      match passWindows codec fold total (List.replicate total window) 0
          (source, destination) with
      | .ok passed s => .ok (total, passed) s
      | .error e s => .error e s

end ObjectView

end WireView
