import WireView.Memory.Cell

/-!
# The contents of a memory

A memory is known by its cells and what each of them holds. A write to a cell that exists always
ends well, and what it leaves is a memory again: plain and shared cells differ in the steps they
take there and not in the outcome. The outcome of many writes is the fold of single ones.
-/

namespace WireView

/-- What a cell holds after a write, plain or folding, when it held `stored` before. -/
def merged {α : Type} (fold : Option (Fold α)) (stored incoming : α) : α :=
  match fold with
  | none => incoming
  | some f => f.apply stored incoming

variable {t : ItemKind}

section sequence

variable {ε σ β γ : Type} {a : EStateM ε σ β} {f : β → EStateM ε σ γ} {s s' : σ}

/-- An action goes on from the result and the state that its first part ended with. -/
theorem bind_of_ok {x : β} (h : a s = .ok x s') : (a >>= f) s = f x s' := by
  change EStateM.bind a f s = _
  simp only [EStateM.bind, h]

/-- A failure ends an action. -/
theorem bind_of_error {e : ε} (h : a s = .error e s') : (a >>= f) s = .error e s' := by
  change EStateM.bind a f s = _
  simp only [EStateM.bind, h]

end sequence

namespace Memory

instance : Membership Location (Memory t) where
  mem m l := (m.cell? l).isSome

theorem mem_iff {m : Memory t} {l : Location} : l ∈ m ↔ ∃ x, m.cell? l = some x :=
  Option.isSome_iff_exists

theorem mem_iff_slot {m : Memory t} {l : Location} : l ∈ m ↔ l.slot < m.extent l.bank := by
  change (m.bank l.bank)[l.slot]?.isSome ↔ _
  simp [extent]

/-- Two memories of one shape have the same banks, and each of them the same number of cells. -/
structure Alike (m m' : Memory t) : Prop where
  size : m.banks.size = m'.banks.size
  extent : ∀ b, m.extent b = m'.extent b

namespace Alike

variable {m m' m'' : Memory t}

theorem refl (m : Memory t) : m.Alike m := ⟨rfl, fun _ => rfl⟩

theorem trans (h : m.Alike m') (h' : m'.Alike m'') : m.Alike m'' :=
  ⟨h.size.trans h'.size, fun b => (h.extent b).trans (h'.extent b)⟩

theorem mem_iff (h : m.Alike m') {l : Location} : l ∈ m ↔ l ∈ m' := by
  rw [mem_iff_slot, mem_iff_slot, h.extent]

end Alike

/-- The cells of a memory determine it, once the number of its banks is known. -/
theorem ext_cells {m m' : Memory t} (size : m.banks.size = m'.banks.size)
    (cells : ∀ l, m.cell? l = m'.cell? l) : m = m' := by
  obtain ⟨banks⟩ := m
  obtain ⟨banks'⟩ := m'
  congr 1
  apply Array.ext size
  intro b hb hb'
  apply Array.ext_getElem?
  intro s
  have h := cells ⟨b, s⟩
  simpa [cell?, bank, Array.getD, hb, hb'] using h

theorem alike_write (m : Memory t) (l : Location) (x : Item t) : (m.write l x).Alike m :=
  ⟨by simp [write], extent_write m l x⟩

def merge (fold : Option (Fold (Item t))) (m : Memory t) (l : Location) (x : Item t) : Memory t :=
  match m.cell? l with
  | some y => m.write l (merged fold y x)
  | none => m

section merge

variable (fold : Option (Fold (Item t))) (m : Memory t)

theorem merge_eq {l : Location} {y : Item t} (h : m.cell? l = some y) (x : Item t) :
    m.merge fold l x = m.write l (merged fold y x) := by
  simp only [merge, h]

theorem alike_merge (l : Location) (x : Item t) : (m.merge fold l x).Alike m := by
  unfold merge
  split
  · exact alike_write _ _ _
  · exact Alike.refl m

theorem cell?_merge (l k : Location) (x : Item t) :
    (m.merge fold l x).cell? k =
      if k = l then (m.cell? l).map (fun y => merged fold y x) else m.cell? k := by
  unfold merge
  by_cases hk : k = l
  · subst k
    cases h : m.cell? l with
    | none => simp [h]
    | some y => simp [cell?_write, h]
  · cases h : m.cell? l with
    | none => simp [hk]
    | some y => simp [cell?_write, hk]

theorem cell?_merge_of_ne {l k : Location} (x : Item t) (h : k ≠ l) :
    (m.merge fold l x).cell? k = m.cell? k := by
  rw [cell?_merge, if_neg h]

/-- Writes to two cells may change places, and so may two writes to one cell when the order in
which the items come in makes no difference to what is folded. -/
theorem merge_comm (swap : ∀ z x y : Item t,
      merged fold (merged fold z x) y = merged fold (merged fold z y) x)
    (l k : Location) (x y : Item t) :
    (m.merge fold l x).merge fold k y = (m.merge fold k y).merge fold l x := by
  apply ext_cells
  · rw [(alike_merge fold _ k y).size, (alike_merge fold m l x).size,
      (alike_merge fold _ l x).size, (alike_merge fold m k y).size]
  · intro i
    simp only [cell?_merge]
    by_cases hlk : l = k
    · subst k
      by_cases hil : i = l
      · cases h : m.cell? l with
        | none => simp [hil]
        | some z => simp [hil, swap z x y]
      · simp [hil]
    · have hkl : ¬k = l := fun h => hlk h.symm
      by_cases hil : i = l
      · subst i
        simp [hlk]
      · simp [hil, hkl]

def mergeAll (writes : List (Location × Item t)) : Memory t :=
  writes.foldl (fun m w => m.merge fold w.1 w.2) m

@[simp] theorem mergeAll_nil : m.mergeAll fold [] = m := rfl

@[simp] theorem mergeAll_cons (w : Location × Item t) (ws : List (Location × Item t)) :
    m.mergeAll fold (w :: ws) = (m.merge fold w.1 w.2).mergeAll fold ws := rfl

theorem mergeAll_append (ws vs : List (Location × Item t)) :
    m.mergeAll fold (ws ++ vs) = (m.mergeAll fold ws).mergeAll fold vs :=
  List.foldl_append

theorem alike_mergeAll (ws : List (Location × Item t)) : (m.mergeAll fold ws).Alike m := by
  induction ws generalizing m with
  | nil => exact Alike.refl m
  | cons w ws ih => exact (ih _).trans (alike_merge fold m w.1 w.2)

theorem cell?_mergeAll_of_ne {l : Location} {ws : List (Location × Item t)}
    (h : ∀ w ∈ ws, l ≠ w.1) : (m.mergeAll fold ws).cell? l = m.cell? l := by
  induction ws generalizing m with
  | nil => rfl
  | cons w ws ih =>
    rw [mergeAll_cons, ih _ fun v hv => h v (List.mem_cons_of_mem w hv)]
    exact cell?_merge_of_ne fold m w.2 (h w List.mem_cons_self)

/-- A cell that just one of the writes goes to is written by it, and left alone by the others. -/
theorem cell?_mergeAll {ws : List (Location × Item t)} (once : (ws.map Prod.fst).Nodup)
    {l : Location} {x : Item t} (h : (l, x) ∈ ws) :
    (m.mergeAll fold ws).cell? l = (m.cell? l).map (fun y => merged fold y x) := by
  induction ws generalizing m with
  | nil => cases h
  | cons w ws ih =>
    rw [List.map_cons, List.nodup_cons] at once
    rw [mergeAll_cons]
    rcases List.mem_cons.mp h with heq | htail
    · subst w
      rw [cell?_mergeAll_of_ne, cell?_merge, if_pos rfl]
      intro v hv heq
      exact once.1 (List.mem_map.mpr ⟨v, hv, heq.symm⟩)
    · have hne : l ≠ w.1 := by
        intro heq
        exact once.1 (List.mem_map.mpr ⟨(l, x), htail, heq⟩)
      rw [ih _ once.2 htail, cell?_merge_of_ne fold m w.2 hne]

/-- Where folding takes no account of order, one write moves past any number of others. -/
theorem mergeAll_merge (swap : ∀ z x y : Item t,
      merged fold (merged fold z x) y = merged fold (merged fold z y) x)
    (ws : List (Location × Item t)) (l : Location) (x : Item t) :
    (m.merge fold l x).mergeAll fold ws = (m.mergeAll fold ws).merge fold l x := by
  induction ws generalizing m with
  | nil => rfl
  | cons w ws ih => rw [mergeAll_cons, mergeAll_cons, merge_comm fold m swap, ih]

theorem mergeAll_comm (swap : ∀ z x y : Item t,
      merged fold (merged fold z x) y = merged fold (merged fold z y) x)
    (ws vs : List (Location × Item t)) :
    (m.mergeAll fold ws).mergeAll fold vs = (m.mergeAll fold vs).mergeAll fold ws := by
  induction ws generalizing m with
  | nil => rfl
  | cons w ws ih => rw [mergeAll_cons, mergeAll_cons, ih, mergeAll_merge fold m swap]

end merge

end Memory

open Memory

section actions

variable {m : Memory t} {l : Location}

theorem load_eq {x : Item t} (h : m.cell? l = some x) : load l m = .ok x m := by
  simp only [load, h]

theorem store_eq (h : l ∈ m) (x : Item t) : store l x m = .ok () (m.write l x) := by
  obtain ⟨y, hy⟩ := mem_iff.mp h
  simp only [store, hy]

theorem foldInto_eq {y : Item t} (h : m.cell? l = some y) (f : Fold (Item t)) (x : Item t) :
    foldInto f l x m = .ok (f.apply y x) (m.write l (f.apply y x)) := by
  unfold foldInto
  rw [bind_of_ok (load_eq h)]
  exact bind_of_ok (store_eq (mem_iff.mpr ⟨y, h⟩) _)

/-- With no one else at the cell, the compare-and-set succeeds at once. -/
theorem foldIntoShared_eq {y : Item t} (h : m.cell? l = some y) (f : Fold (Item t)) (x : Item t) :
    foldIntoShared f l x m = .ok (f.apply y x) (m.write l (f.apply y x)) := by
  have set : setIf l y (f.apply y x) m = .ok true (m.write l (f.apply y x)) := by
    unfold setIf
    rw [bind_of_ok (load_eq h), if_pos rfl]
    exact bind_of_ok (store_eq (mem_iff.mpr ⟨y, h⟩) _)
  unfold foldIntoShared
  rw [bind_of_ok (load_eq h)]
  exact bind_of_ok set

theorem writePlain_eq (h : l ∈ m) (fold : Option (Fold (Item t))) (x : Item t) :
    writePlain fold l x m = .ok () (m.merge fold l x) := by
  obtain ⟨y, hy⟩ := mem_iff.mp h
  rw [merge_eq fold m hy]
  cases fold with
  | none => exact store_eq h x
  | some f => exact bind_of_ok (foldInto_eq hy f x)

theorem writeShared_eq (h : l ∈ m) (fold : Option (Fold (Item t))) (x : Item t) :
    writeShared fold l x m = .ok () (m.merge fold l x) := by
  obtain ⟨y, hy⟩ := mem_iff.mp h
  rw [merge_eq fold m hy]
  cases fold with
  | none => exact store_eq h x
  | some f => exact bind_of_ok (foldIntoShared_eq hy f x)

end actions

end WireView
