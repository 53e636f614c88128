import WireView.Local

/-!
# The store

The items of different types never share a cell, so the store is one memory for each item type. A
call works on the memories one at a time. It may be refused or end in a breach, and then the
store keeps all that was written before.
-/

namespace WireView

abbrev Store := PerKind Memory

def Store.empty : Store := .tabulate fun _ => Memory.empty

/-- What may be done to a store. -/
abbrev Call (β : Type) := Routine Store β

namespace Call

/-- Runs a routine on the memory of one item type. -/
def within {β : Type} (t : ItemKind) (routine : Routine (Memory t) β) : Call β := fun s =>
  match routine (s.get t) with
  | .ok x m => .ok x (s.set t m)
  | .error e m => .error e (s.set t m)

def act {β : Type} (t : ItemKind) (action : Action t β) : Call β := within t (.act action)

end Call

end WireView
