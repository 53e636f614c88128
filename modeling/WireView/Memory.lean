import WireView.Fault
import WireView.Item.Basic

/-!
# Memory

All items of one type live in numbered banks of cells. A bank never changes its size, and two
views share a cell exactly when they name the same bank and the same slot of it. Arrays, shared
arrays, shared cells and scalars all are banks; what differs is how a view goes through them.

A storage is always a whole bank. So two storages are one or have no cell in common, and storages
made of overlapping parts of one array of cells are outside this memory.

An action reads and writes the memory. It may end in a breach, and then the memory keeps all that
was written before.
-/

namespace WireView

structure Memory (t : ItemKind) where
  banks : Array (Array (Item t))

structure Location where
  bank : Nat
  slot : Nat
  deriving DecidableEq

/-- A storage: a whole bank, with the number of its cells. -/
structure Region where
  bank : Nat
  extent : Nat
  deriving DecidableEq

/-- What may be done to the items of one type. -/
abbrev Action (t : ItemKind) (β : Type) := EStateM Breach (Memory t) β

namespace Memory

variable {t : ItemKind}

def empty : Memory t := ⟨#[]⟩

/-- The items of a bank; a bank that does not exist has none. -/
def bank (m : Memory t) (b : Nat) : Array (Item t) := m.banks.getD b #[]

def extent (m : Memory t) (b : Nat) : Nat := (m.bank b).size

def cell? (m : Memory t) (l : Location) : Option (Item t) := (m.bank l.bank)[l.slot]?

/-- The memory with one cell replaced; a cell that does not exist stays away. -/
def write (m : Memory t) (l : Location) (x : Item t) : Memory t :=
  ⟨m.banks.modify l.bank (·.setIfInBounds l.slot x)⟩

def allot (m : Memory t) (items : Array (Item t)) : Region × Memory t :=
  (⟨m.banks.size, items.size⟩, ⟨m.banks.push items⟩)

/-- The storage is all of its bank, and no more. -/
def Holds (m : Memory t) (s : Region) : Prop := m.extent s.bank = s.extent

theorem bank_allot (m : Memory t) (items : Array (Item t)) :
    (m.allot items).2.bank (m.allot items).1.bank = items := by
  simp [allot, bank]

theorem extent_write (m : Memory t) (l : Location) (x : Item t) (b : Nat) :
    (m.write l x).extent b = m.extent b := by
  unfold extent bank write
  simp only [Array.getD_eq_getD_getElem?, Array.getElem?_modify]
  split
  · cases h : m.banks[b]? <;> simp
  · rfl

theorem cell?_write (m : Memory t) (l k : Location) (x : Item t) :
    (m.write l x).cell? k = if k = l then (m.cell? l).map (fun _ => x) else m.cell? k := by
  obtain ⟨b, s⟩ := l
  obtain ⟨b', s'⟩ := k
  unfold cell? bank write
  simp only [Array.getD_eq_getD_getElem?, Array.getElem?_modify]
  by_cases hb : b = b'
  · subst hb
    cases h : m.banks[b]? with
    | none => simp
    | some items => grind
  · grind

end Memory

variable {t : ItemKind}

def load (l : Location) : Action t (Item t) := fun m =>
  match m.cell? l with
  | some x => .ok x m
  | none => .error (.slot l.slot (m.extent l.bank)) m

def store (l : Location) (x : Item t) : Action t Unit := fun m =>
  match m.cell? l with
  | some _ => .ok () (m.write l x)
  | none => .error (.slot l.slot (m.extent l.bank)) m

def extentOf (b : Nat) : Action t Nat := fun m => .ok (m.extent b) m

/-- Ends the action in a breach where a pure step does. -/
def liftStep {β : Type} (step : Except Breach β) : Action t β := fun m =>
  match step with
  | .ok x => .ok x m
  | .error b => .error b m

end WireView
