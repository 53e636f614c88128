import WireView.Proofs.Packing

/-!
# Windows that are filled and emptied in place

Packing hands its bytes back, and unpacking hands back what it leaves of a window. Here the window
stands beside the memory and changes item by item, so that a breach halfway would show in it. What
packing and unpacking do to a window that is handed on is what they do to one in place, and a start
past the end is found out before either is touched.
-/

namespace WireView

variable {t : ItemKind}

/-- What an action that ends well did first, and what it did then. -/
theorem ok_of_bind_ok {ε σ β γ : Type} {a : EStateM ε σ β} {f : β → EStateM ε σ γ} {s s' : σ}
    {y : γ} (h : (a >>= f) s = .ok y s') :
    ∃ x before, a s = .ok x before ∧ f x before = .ok y s' := by
  change EStateM.bind a f s = _ at h
  unfold EStateM.bind at h
  split at h
  · next x before first => exact ⟨x, before, first, h⟩
  · cases h

/-- A memory with a window: the bytes that have been written, or those still to be read. -/
structure Bench (t : ItemKind) where
  memory : Memory t
  window : List UInt8

abbrev Work (t : ItemKind) (β : Type) := EStateM Breach (Bench t) β

namespace Work

variable {β σ : Type} {v : View} {m m' : Memory t} {window : List UInt8}

/-- An action that leaves the window alone. -/
def onMemory (a : Action t β) : Work t β := fun s =>
  match a s.memory with
  | .ok x m => .ok x { s with memory := m }
  | .error b m => .error b { s with memory := m }

def look : Work t (List UInt8) := fun s => .ok s.window s

def draw : Work t (Item t) := fun s =>
  .ok (Item.decode t (s.window.take t.width)) { s with window := s.window.drop t.width }

def add (x : Item t) : Work t Unit := fun s => .ok () { s with window := s.window ++ x.encode }

def throughCells (v : View) (visit : Location → Work t Unit) : List Run → Work t Unit
  | [] => pure ()
  | r :: rs => do
    let cells ← onMemory (v.enter r)
    cells.forM visit
    throughCells v visit rs

theorem onMemory_of_ok {a : Action t β} {x : β} (h : a m = .ok x m') :
    onMemory a ⟨m, window⟩ = .ok x ⟨m', window⟩ := by
  simp only [onMemory, h]

theorem onMemory_of_error {a : Action t β} {b : Breach} (h : a m = .error b m') :
    onMemory a ⟨m, window⟩ = .error b ⟨m', window⟩ := by
  simp only [onMemory, h]

/-- When each visit to some cells does in place what another does with a value for the window, so
do the two walks. -/
theorem throughCells_of_ok {visit : Location → Work t Unit}
    {visits : List Location → σ → Action t σ} {bytes : σ → List UInt8}
    (mirrors : ∀ ls x y m m', visits ls x m = .ok y m' →
      ls.forM visit ⟨m, bytes x⟩ = .ok () ⟨m', bytes y⟩)
    {rs : List Run} {x y : σ} (h : v.throughRuns visits rs x m = .ok y m') :
    throughCells v visit rs ⟨m, bytes x⟩ = .ok () ⟨m', bytes y⟩ := by
  induction rs generalizing x m with
  | nil =>
    cases h
    rfl
  | cons r rs ih =>
    obtain ⟨cells, _, entered, h⟩ := ok_of_bind_ok h
    obtain ⟨z, _, visited, later⟩ := ok_of_bind_ok h
    rw [throughCells, bind_of_ok (onMemory_of_ok entered), bind_of_ok (mirrors _ _ _ _ _ visited)]
    exact ih later

end Work

namespace Endpoint

open Work

variable {p : Endpoint t} {m m' : Memory t} {start most : Nat} {room : Option Nat}
variable {window : List UInt8}

def packCell (l : Location) : Work t Unit := do
  add (← onMemory (load l))

def unpackCell (p : Endpoint t) (l : Location) : Work t Unit := do
  let x ← draw
  onMemory (p.write l x)

def packInto (p : Endpoint t) (start : Nat) (room : Option Nat) : Work t Nat := do
  onMemory (p.checkStart start)
  let n := p.packable start room
  if n = 0 then
    return 0
  throughCells p.view packCell (p.view.runs start n)
  return n

def unpackFrom (p : Endpoint t) (start most : Nat) : Work t Nat := do
  onMemory (p.checkStart start)
  let n := min (min most (p.length - start)) (wholeItems t (← look).length)
  if n = 0 then
    return 0
  throughCells p.view p.unpackCell (p.view.runs start n)
  return n

theorem forM_packCell (window : List UInt8) (ls : List Location) (xs ys : List (Item t))
    (m m' : Memory t) (h : collect ls xs m = .ok ys m') :
    ls.forM packCell ⟨m, window ++ encodeAll xs⟩ = .ok () ⟨m', window ++ encodeAll ys⟩ := by
  induction ls generalizing xs m with
  | nil =>
    rw [collect_nil] at h
    cases h
    rfl
  | cons l ls ih =>
    have split : collect (l :: ls) xs = collect [l] xs >>= collect ls := collect_append [l] ls xs
    rw [split] at h
    obtain ⟨zs, before, first, later⟩ := ok_of_bind_ok h
    obtain ⟨items, _, loaded, first⟩ := ok_of_bind_ok first
    obtain ⟨x, _, got, loaded⟩ := ok_of_bind_ok loaded
    cases loaded
    cases first
    have added : packCell l ⟨m, window ++ encodeAll xs⟩ =
        .ok () ⟨before, window ++ encodeAll (xs ++ [x])⟩ := by
      rw [packCell, bind_of_ok (onMemory_of_ok got), add, encodeAll_append, ← List.append_assoc]
      simp [encodeAll]
    exact (bind_of_ok added).trans (ih _ _ later)

theorem forM_unpackCell (ls : List Location) (window rest : List UInt8) (m m' : Memory t)
    (h : writeBytes p.write ls window m = .ok rest m') :
    ls.forM p.unpackCell ⟨m, window⟩ = .ok () ⟨m', rest⟩ := by
  induction ls generalizing window m with
  | nil =>
    cases h
    rfl
  | cons l ls ih =>
    obtain ⟨_, _, written, later⟩ := ok_of_bind_ok h
    have first : p.unpackCell l ⟨m, window⟩ = .ok () ⟨_, window.drop t.width⟩ :=
      onMemory_of_ok written
    exact (bind_of_ok first).trans (ih _ _ later)

/-- Packing into a window in place adds the bytes that packing hands back. -/
theorem packInto_of_ok {packed : Packed} (h : p.pack start room m = .ok packed m') :
    p.packInto start room ⟨m, window⟩ = .ok packed.count ⟨m', window ++ packed.bytes⟩ := by
  obtain ⟨_, _, checked, h⟩ := ok_of_bind_ok h
  rw [packInto, bind_of_ok (onMemory_of_ok checked)]
  by_cases none : p.packable start room = 0
  · simp only [if_pos none] at h ⊢
    cases h
    rw [List.append_nil]
    rfl
  · simp only [if_neg none] at h ⊢
    obtain ⟨xs, _, walked, h⟩ := ok_of_bind_ok h
    cases h
    have inPlace := throughCells_of_ok (forM_packCell window) walked
    rw [encodeAll, List.flatMap_nil, List.append_nil] at inPlace
    exact bind_of_ok inPlace

/-- Unpacking from a window in place leaves there what unpacking hands back. -/
theorem unpackFrom_of_ok {taken : Taken} (h : p.unpack start most window m = .ok taken m') :
    p.unpackFrom start most ⟨m, window⟩ = .ok taken.count ⟨m', taken.rest⟩ := by
  obtain ⟨_, before, checked, h⟩ := ok_of_bind_ok h
  have seen : (look : Work t _) ⟨before, window⟩ = .ok window ⟨before, window⟩ := rfl
  rw [unpackFrom, bind_of_ok (onMemory_of_ok checked), bind_of_ok seen]
  by_cases none : min (min most (p.length - start)) (wholeItems t window.length) = 0
  · simp only [if_pos none] at h ⊢
    cases h
    rfl
  · simp only [if_neg none] at h ⊢
    obtain ⟨rest, _, walked, h⟩ := ok_of_bind_ok h
    cases h
    have inPlace := throughCells_of_ok forM_unpackCell walked
    exact bind_of_ok inPlace

theorem packInto_of_lt (hs : p.length < start) :
    p.packInto start room ⟨m, window⟩ = .error (.start start p.length) ⟨m, window⟩ :=
  bind_of_error (onMemory_of_error (checkStart_of_lt hs))

theorem unpackFrom_of_lt (hs : p.length < start) :
    p.unpackFrom start most ⟨m, window⟩ = .error (.start start p.length) ⟨m, window⟩ :=
  bind_of_error (onMemory_of_error (checkStart_of_lt hs))

end Endpoint

end WireView
