import WireView.Object.View
import WireView.Proofs.Making

/-!
# Writing objects

A view of objects that fits its array has a slot of its own for every logical item. So writing a
list to the first items of a view changes the slots of these items and no others, each of them once,
and folding a view in put by put is writing the list of its objects.
-/

namespace WireView

namespace ObjectView

variable {α : Type} {v w : ObjectView α} {i j : Nat}

def Fits (v : ObjectView α) : Prop := ∀ r ∈ v.range, r.Fits v.items.size

theorem length_of_range {r : IndexRange} (hr : v.range = some r) : v.length = r.length := by
  rw [length, hr]
  rfl

theorem position_of_range {r : IndexRange} (hr : v.range = some r) (i : Nat) :
    v.position i = r.position i := by
  rw [position, hr]
  rfl

theorem range_of_lt (hi : i < v.length) : ∃ r, v.range = some r ∧ i < r.length := by
  cases hr : v.range with
  | none =>
    rw [length, hr] at hi
    exact absurd hi (Nat.not_lt_zero i)
  | some r => exact ⟨r, rfl, length_of_range hr ▸ hi⟩

theorem position_lt (fits : v.Fits) (hi : i < v.length) : v.position i < v.items.size := by
  obtain ⟨r, hr, hi⟩ := range_of_lt hi
  rw [position_of_range hr]
  exact r.position_lt (fits r hr) hi

theorem position_strictMono (hij : i < j) (hj : j < v.length) : v.position i < v.position j := by
  obtain ⟨r, hr, -⟩ := range_of_lt hj
  rw [position_of_range hr, position_of_range hr]
  exact r.position_strictMono hij

theorem position_injective (hi : i < v.length) (hj : j < v.length)
    (same : v.position i = v.position j) : i = j := by
  have increasing : StrictMonoOn v.position {k | k < v.length} :=
    fun _ _ _ hl hkl => position_strictMono hkl hl
  exact increasing.injOn hi hj same

theorem slot_of_lt (fits : v.Fits) (hi : i < v.length) :
    ∃ x, v.items[v.position i]? = some x ∧ v.get i = .ok x := by
  have inside := position_lt fits hi
  have held : v.items[v.position i]? = some v.items[v.position i] :=
    Array.getElem?_eq_getElem inside
  refine ⟨_, held, ?_⟩
  rw [get, if_pos hi, held]

theorem get_of_slot {x : α} (hi : i < v.length) (hx : v.items[v.position i]? = some x) :
    v.get i = .ok x := by
  rw [get, if_pos hi, hx]

/-- The objects in order are those read by index. -/
theorem mapM_get (fits : v.Fits) : (List.range v.length).mapM v.get = .ok v.toList := by
  have each : ∀ is : List Nat, (∀ i ∈ is, i < v.length) →
      is.mapM v.get = .ok (is.filterMap fun i => v.items[v.position i]?) := by
    intro is inside
    induction is with
    | nil => rfl
    | cons i is ih =>
      obtain ⟨x, hx, read⟩ := slot_of_lt fits (inside i List.mem_cons_self)
      have rest := ih fun j hj => inside j (List.mem_cons_of_mem i hj)
      have head : (i :: is).filterMap (fun i => v.items[v.position i]?)
          = x :: is.filterMap fun i => v.items[v.position i]? := List.filterMap_cons_some hx
      rw [List.mapM_cons, read, rest, head]
      rfl
  exact each _ fun i hi => List.mem_range.mp hi

theorem length_toList (fits : v.Fits) : v.toList.length = v.length := by
  have each : ∀ i ∈ List.range v.length, (v.items[v.position i]?).isSome := by
    intro i hi
    obtain ⟨x, hx, -⟩ := slot_of_lt fits (List.mem_range.mp hi)
    rw [hx]
    rfl
  rw [toList, List.length_filterMap_eq_countP, List.countP_eq_length.mpr each, List.length_range]

/-- Two views of one shape have the same range of an array of the same size. -/
structure Alike (v w : ObjectView α) : Prop where
  range : w.range = v.range
  size : w.items.size = v.items.size

namespace Alike

variable {u : ObjectView α}

theorem refl (v : ObjectView α) : v.Alike v := ⟨rfl, rfl⟩

theorem trans (h : v.Alike w) (h' : w.Alike u) : v.Alike u :=
  ⟨h'.range.trans h.range, h'.size.trans h.size⟩

theorem fits (h : v.Alike w) (fits : v.Fits) : w.Fits := by
  intro r hr
  rw [h.size]
  exact fits r (h.range.symm.trans hr)

theorem length (h : v.Alike w) : w.length = v.length := by
  rw [ObjectView.length, h.range]
  rfl

theorem position (h : v.Alike w) (i : Nat) : w.position i = v.position i := by
  rw [ObjectView.position, h.range]
  rfl

end Alike

/-- An array with some slots changed, one after another, each by the object that comes for it. -/
def changeSlots (f : α → α → α) (items : Array α) (ws : List (Nat × α)) : Array α :=
  ws.foldl (fun items w => items.modify w.1 fun y => f y w.2) items

section slots

variable {f : α → α → α} {ws : List (Nat × α)} {s : Nat} {items : Array α}

@[simp] theorem changeSlots_cons (f : α → α → α) (items : Array α) (w : Nat × α)
    (ws : List (Nat × α)) :
    changeSlots f items (w :: ws) = changeSlots f (items.modify w.1 fun y => f y w.2) ws := rfl

theorem size_changeSlots (f : α → α → α) (items : Array α) (ws : List (Nat × α)) :
    (changeSlots f items ws).size = items.size := by
  induction ws generalizing items with
  | nil => rfl
  | cons w ws ih => rw [changeSlots_cons, ih, Array.size_modify]

theorem getElem?_changeSlots_of_ne (other : ∀ w ∈ ws, w.1 ≠ s) :
    (changeSlots f items ws)[s]? = items[s]? := by
  induction ws generalizing items with
  | nil => rfl
  | cons w ws ih =>
    rw [changeSlots_cons, ih fun u hu => other u (List.mem_cons_of_mem w hu),
      Array.getElem?_modify, if_neg (other w List.mem_cons_self)]

/-- A slot that just one object comes for is changed by it, and left alone by the others. -/
theorem getElem?_changeSlots (once : (ws.map Prod.fst).Nodup) {x : α} (h : (s, x) ∈ ws) :
    (changeSlots f items ws)[s]? = (items[s]?).map fun y => f y x := by
  induction ws generalizing items with
  | nil => cases h
  | cons w ws ih =>
    rw [List.map_cons, List.nodup_cons] at once
    obtain ⟨first, once⟩ := once
    rw [changeSlots_cons]
    rcases List.mem_cons.mp h with rfl | later
    · rw [getElem?_changeSlots_of_ne, Array.getElem?_modify, if_pos rfl]
      intro u hu same
      exact first (List.mem_map.mpr ⟨u, hu, same⟩)
    · have apart : w.1 ≠ s := by
        rintro rfl
        exact first (List.mem_map.mpr ⟨_, later, rfl⟩)
      rw [ih once later, Array.getElem?_modify, if_neg apart]

end slots

/-- The slots of the first items of a view, each with the object that comes for it. -/
def pairs (v : ObjectView α) (xs : List α) : List (Nat × α) :=
  ((List.range v.length).map v.position).zip xs

theorem items_updateFront (v : ObjectView α) (f : α → α → α) (xs : List α) :
    (v.updateFront f xs).items = changeSlots f v.items (v.pairs xs) := by
  rw [updateFront, changeSlots, pairs, List.zip_map_left, List.foldl_map]
  rfl

theorem alike_updateFront (v : ObjectView α) (f : α → α → α) (xs : List α) :
    v.Alike (v.updateFront f xs) where
  range := rfl
  size := by rw [items_updateFront, size_changeSlots]

theorem nodup_pairs (v : ObjectView α) (xs : List α) : ((v.pairs xs).map Prod.fst).Nodup := by
  have all : ((List.range v.length).map v.position).Nodup := by
    refine List.Nodup.map_on ?_ List.nodup_range
    intro i hi j hj same
    exact position_injective (List.mem_range.mp hi) (List.mem_range.mp hj) same
  rw [pairs, List.zip_eq_zip_take_min, List.map_fst_zip (by simp)]
  exact all.sublist (List.take_sublist _ _)

theorem mem_pairs {xs : List α} {x : α} (hi : i < v.length) (hx : xs[i]? = some x) :
    (v.position i, x) ∈ v.pairs xs := by
  apply List.mem_of_getElem? (i := i)
  rw [pairs, List.getElem?_zip_eq_some]
  exact ⟨by simp [hi], hx⟩

theorem exists_of_mem_pairs {xs : List α} {p : Nat × α} (hp : p ∈ v.pairs xs) :
    ∃ i < min v.length xs.length, v.position i = p.1 := by
  obtain ⟨i, hi⟩ := List.mem_iff_getElem?.mp hp
  rw [pairs, List.getElem?_zip_eq_some] at hi
  obtain ⟨slot, object⟩ := hi
  obtain ⟨k, hk, here⟩ := Option.map_eq_some_iff.mp (List.getElem?_map ▸ slot)
  obtain ⟨inside, rfl⟩ := List.getElem?_eq_some_iff.mp hk
  rw [List.length_range] at inside
  rw [List.getElem_range] at here
  have listed := (List.getElem?_eq_some_iff.mp object).1
  exact ⟨i, by omega, here⟩

/-- The first items of a view have become the objects of a list, or have been combined with them,
and no other slot of its array has changed. -/
structure Written (fold : Option (α → α → α)) (v : ObjectView α) (xs : List α)
    (w : ObjectView α) : Prop where
  item : ∀ i < v.length, ∀ x, xs[i]? = some x →
    ∃ y, v.get i = .ok y ∧ w.get i = .ok (writing fold y x)
  others : ∀ s, (∀ i < min v.length xs.length, v.position i ≠ s) → w.items[s]? = v.items[s]?
  alike : v.Alike w

theorem written_updateFront (fits : v.Fits) (fold : Option (α → α → α)) (xs : List α) :
    Written fold v xs (v.updateFront (writing fold) xs) where
  item := by
    intro i hi x hx
    obtain ⟨y, held, read⟩ := slot_of_lt fits hi
    have same := alike_updateFront v (writing fold) xs
    refine ⟨y, read, get_of_slot (same.length ▸ hi) ?_⟩
    rw [same.position, items_updateFront,
      getElem?_changeSlots (nodup_pairs v xs) (mem_pairs hi hx), held]
    rfl
  others := by
    intro s other
    rw [items_updateFront]
    apply getElem?_changeSlots_of_ne
    intro p hp
    obtain ⟨i, hi, here⟩ := exists_of_mem_pairs hp
    exact here ▸ other i hi
  alike := alike_updateFront v (writing fold) xs

/-- Putting objects one after another changes the slots that writing them at once changes. -/
theorem foldl_update (f : α → α → α) (ps : List (Nat × α)) (v : ObjectView α) :
    let w := ps.foldl (fun v (i, x) => v.update i fun y => f y x) v
    w.range = v.range ∧ (v.cached = none → w.cached = none) ∧
      w.items =
        ps.foldl (fun items (i, x) => items.modify (v.position i) fun y => f y x) v.items := by
  induction ps generalizing v with
  | nil => exact ⟨rfl, id, rfl⟩
  | cons p ps ih =>
    obtain ⟨range, dropped, items⟩ := ih (v.update p.1 fun y => f y p.2)
    exact ⟨range, fun _ => dropped rfl, items⟩

def absorbBy (v : ObjectView α) (fold : Option (α → α → α)) (source : ObjectView α) :
    ObjectView α :=
  match fold with
  | none => v.absorb source
  | some f => v.absorbWith f source

theorem items_absorbWith (v : ObjectView α) (f : α → α → α) (source : ObjectView α) :
    (v.absorbWith f source).items = (v.updateFront f source.toList).items :=
  (foldl_update f _ v).2.2

theorem alike_absorbWith (v : ObjectView α) (f : α → α → α) (source : ObjectView α) :
    v.Alike (v.absorbWith f source) where
  range := (foldl_update f _ v).1
  size := by rw [items_absorbWith, items_updateFront, size_changeSlots]

theorem items_absorbBy (v : ObjectView α) (fold : Option (α → α → α)) (source : ObjectView α) :
    (v.absorbBy fold source).items = (v.updateFront (writing fold) source.toList).items := by
  cases fold with
  | none => rfl
  | some f => exact items_absorbWith v f source

end ObjectView

end WireView
