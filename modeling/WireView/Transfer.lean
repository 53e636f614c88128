import WireView.Store

/-!
# Transfers

A transfer passes the items of a view through many windows. The sender remembers the next item to
pack, and the receiver the next item to take, so that each call goes on where the last window
stopped.

The receiver is told how many items are coming, which may be more than its view holds: the
surplus is taken off the wire and dropped. The stream may be cut anywhere. The bytes of an item
that ends in a later window are held back, and the item is taken once they are complete.

The bytes do not tell the type of the items. Each side writes or reads items of its own type, and
nothing notices when the two types differ.
-/

namespace WireView

variable {t : ItemKind}

/-- The sending side of a transfer of `length` items. -/
structure Sender where
  length : Nat
  next : Nat := 0
  deriving DecidableEq

namespace Sender

def remaining (s : Sender) : Nat := s.length - s.next

def IsDone (s : Sender) : Prop := s.next = s.length

instance (s : Sender) : Decidable s.IsDone := inferInstanceAs (Decidable (s.next = s.length))

def send (s : Sender) (p : Endpoint t) (room : Option Nat) : Action t (Sender × Packed) := do
  let packed ← p.pack s.next room
  return ({ s with next := s.next + packed.count }, packed)

/-- Packs through one window after another, until all is sent or a window takes nothing. -/
def drain (p : Endpoint t) : List Nat → Sender → Action t (Sender × List Packed)
  | [], s => pure (s, [])
  | room :: rooms, s => do
    if s.IsDone then
      return (s, [])
    let (s, packed) ← s.send p (some room)
    if packed.count = 0 then
      return (s, [packed])
    let (s, more) ← drain p rooms s
    return (s, packed :: more)

end Sender

/-- The receiving side of a transfer: `announced` items for a view of `length` items. -/
structure Receiver where
  length : Nat
  announced : Nat
  next : Nat := 0
  held : List UInt8 := []
  deriving DecidableEq

namespace Receiver

def IsDone (r : Receiver) : Prop := r.announced ≤ r.next

instance (r : Receiver) : Decidable r.IsDone :=
  inferInstanceAs (Decidable (r.announced ≤ r.next))

/-- Takes items into the view while it has room for them. -/
def takeStored (r : Receiver) (p : Endpoint t) (window : List UInt8) :
    Action t (Receiver × Taken) := do
  if r.next < r.length then
    let taken ← p.unpack r.next (min r.announced r.length - r.next) window
    return ({ r with next := r.next + taken.count }, taken)
  return (r, ⟨0, window⟩)

def dropSurplus (t : ItemKind) (r : Receiver) (window : List UInt8) : Receiver × Taken :=
  if r.length ≤ r.next ∧ r.next < r.announced then
    let (n, rest) := dropItems t (r.announced - r.next) window
    ({ r with next := r.next + n }, ⟨n, rest⟩)
  else (r, ⟨0, window⟩)

/-- Takes the whole items of a window that belong to the transfer. -/
def takeWhole (r : Receiver) (p : Endpoint t) (window : List UInt8) :
    Action t (Receiver × Taken) := do
  let (r, stored) ← r.takeStored p window
  let (r, dropped) := r.dropSurplus t stored.rest
  return (r, ⟨stored.count + dropped.count, dropped.rest⟩)

/-- Holds back what is left of a window that ends inside an item still to come. -/
def holdTail (t : ItemKind) (r : Receiver) (window : List UInt8) : Receiver × List UInt8 :=
  if ¬r.IsDone ∧ 0 < window.length ∧ window.length < t.width then
    ({ r with held := window }, [])
  else (r, window)

/-- Takes the whole items of a window, with no bytes held back from before. -/
def takeWindow (r : Receiver) (p : Endpoint t) (window : List UInt8) :
    Action t (Receiver × Taken) := do
  let (r, taken) ← r.takeWhole p window
  let (r, rest) := r.holdTail t taken.rest
  return (r, ⟨taken.count, rest⟩)

/-- Takes from a window all that belongs to the transfer. An item whose first bytes came in an
earlier window is completed first, and counts for the call that completes it. -/
def accept (r : Receiver) (p : Endpoint t) (window : List UInt8) :
    Action t (Receiver × Taken) := do
  if r.held = [] then
    r.takeWindow p window
  else
    let missing := min (t.width - r.held.length) window.length
    let carried := r.held ++ window.take missing
    let window := window.drop missing
    if carried.length < t.width then
      return ({ r with held := carried }, ⟨0, window⟩)
    let (r, joined) ← takeWhole { r with held := [] } p carried
    let (r, taken) ← r.takeWindow p window
    return (r, ⟨joined.count + taken.count, taken.rest⟩)

def feed (p : Endpoint t) : List (List UInt8) → Receiver → Action t (Receiver × List Taken)
  | [], r => pure (r, [])
  | window :: windows, r => do
    let (r, taken) ← r.accept p window
    let (r, more) ← feed p windows r
    return (r, taken :: more)

end Receiver

def Endpoint.sender (p : Endpoint t) : Sender := ⟨p.length, 0⟩

def Endpoint.receiver (p : Endpoint t) (announced : Nat) : Receiver := ⟨p.length, announced, 0, []⟩

/-- Cuts bytes into pieces of `size` bytes, the last one possibly shorter. No piece is empty, so a
size of zero cuts as a size of one does. -/
def pieces (size : Nat) : List UInt8 → List (List UInt8)
  | [] => []
  | b :: bs => (b :: bs.take (size - 1)) :: pieces size (bs.drop (size - 1))
termination_by bs => bs.length
decreasing_by simp only [List.length_drop, List.length_cons]; omega

structure Transfer where
  sent : List Packed
  receiver : Receiver
  taken : List Taken

def Transfer.wire (x : Transfer) : List UInt8 := x.sent.flatMap Packed.bytes

def Endpoint.sendAll (p : Endpoint t) (window : Nat) : Action t (List Packed) :=
  Prod.snd <$> Sender.drain p (List.replicate (p.length + 1) window) p.sender

/-- Sends all of the source through windows of one size, and then hands the bytes to the
destination in pieces of another. As many items are announced as the source has. -/
def transfer {t u : ItemKind} (destination : Endpoint u) (source : Endpoint t)
    (window piece : Nat) : Call Transfer := do
  let sent ← .act t (source.sendAll window)
  let wire := sent.flatMap Packed.bytes
  let (receiver, taken) ← .act u
    (Receiver.feed destination (pieces piece wire) (destination.receiver source.length))
  return { sent, receiver, taken }

example : pieces 2 [1, 2, 3] = [[1, 2], [3]] := by decide +kernel

end WireView
