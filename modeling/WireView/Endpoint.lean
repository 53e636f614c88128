import WireView.Memory.Cell
import WireView.View.Run

/-!
# Endpoints

An endpoint is a view together with what a write does there: it replaces the stored item, or folds
the incoming item into it. Reading is the same either way. All indices are logical, and one past
the end of the view is a breach.

Packing writes the items from some index on into a window, as many as there is room for, and
unpacking takes whole items out of a window. Both go through the cells in runs.
-/

namespace WireView

structure Endpoint (t : ItemKind) where
  view : View
  fold : Option (Fold (Item t)) := none

/-- The bytes that packing has written, and how many items they hold. -/
structure Packed where
  count : Nat
  bytes : List UInt8
  deriving DecidableEq

/-- How many items were taken out of a window, and the bytes left in it. -/
structure Taken where
  count : Nat
  rest : List UInt8
  deriving DecidableEq

variable {t : ItemKind}

def loadAll : List Location → Action t (List (Item t))
  | [] => pure []
  | l :: ls => do
    let x ← load l
    let xs ← loadAll ls
    return x :: xs

/-- Decodes one item for each cell and writes it there; the rest of the window is left. -/
def writeBytes (write : Location → Item t → Action t Unit) :
    List Location → List UInt8 → Action t (List UInt8)
  | [], window => pure window
  | l :: ls, window => do
    write l (Item.decode t (window.take t.width))
    writeBytes write ls (window.drop t.width)

namespace View

def locate (v : View) (i : Nat) : Action t Location :=
  match v.locate? i with
  | some l => pure l
  | none => throw (.index i v.length)

end View

namespace Endpoint

def length (p : Endpoint t) : Nat := p.view.length

def get (p : Endpoint t) (i : Nat) : Action t (Item t) := do
  load (← p.view.locate i)

def write (p : Endpoint t) (l : Location) (x : Item t) : Action t Unit :=
  if p.view.IsShared then writeShared p.fold l x else writePlain p.fold l x

def put (p : Endpoint t) (i : Nat) (x : Item t) : Action t Unit := do
  p.write (← p.view.locate i) x

/-- Puts one item, zero unless given, at every index. -/
def fill (p : Endpoint t) (x : Option (Item t)) : Action t Unit :=
  (List.range p.length).forM fun i => p.put i (x.getD Item.zero)

def items (p : Endpoint t) : Action t (List (Item t)) := (List.range p.length).mapM p.get

/-- The item of a view that is a single cell. -/
def item? (p : Endpoint t) : Action t (Option (Item t)) :=
  match p.view with
  | .scalar b | .cell b => some <$> load ⟨b, 0⟩
  | _ => pure none

/-- Refuses a first item past the end. Starting at the end is allowed. -/
def checkStart (p : Endpoint t) (start : Nat) : Action t Unit :=
  if start ≤ p.length then pure () else throw (.start start p.length)

/-- How many items a window with some room can take from `start` on; without a limit, all. -/
def packable (p : Endpoint t) (start : Nat) (room : Option Nat) : Nat :=
  match room with
  | none => p.length - start
  | some bytes => min (p.length - start) (wholeItems t bytes)

def pack (p : Endpoint t) (start : Nat) (room : Option Nat) : Action t Packed := do
  p.checkStart start
  let n := p.packable start room
  if n = 0 then
    return ⟨0, []⟩
  let xs ← p.view.throughRuns (fun cells xs => return xs ++ (← loadAll cells))
    (p.view.runs start n) []
  return ⟨n, encodeAll xs⟩

/-- Takes up to `most` items out of a window, to the indices from `start` on. -/
def unpack (p : Endpoint t) (start most : Nat) (window : List UInt8) : Action t Taken := do
  p.checkStart start
  let n := min (min most (p.length - start)) (wholeItems t window.length)
  if n = 0 then
    return ⟨0, window⟩
  let rest ← p.view.throughRuns (writeBytes p.write) (p.view.runs start n) window
  return ⟨n, rest⟩

/-- The endpoint that folds into the same view; an endpoint that folds already has none. -/
def folding (p : Endpoint t) (f : Fold (Item t)) : Except Refusal (Endpoint t) :=
  match p.fold with
  | none => .ok ⟨p.view, some f⟩
  | some _ => .error .nestedFold

def identity (p : Endpoint t) : Identity := p.view.identity p.fold.isSome

def text (p : Endpoint t) : String :=
  match p.fold with
  | none => p.view.text t
  | some f => "ReductionBuffer \x7b base: " ++ p.view.text t ++ ", op: " ++ f.text ++ " \x7d"

end Endpoint

end WireView
