import WireView.Proofs.Sharing

/-!
# What a cell has taken in

Any number of peers may put items into one view, or hand over windows to be unpacked there, in any
order. A call that is refused changes nothing. So an index holds what it held at first, combined
with the items that came for it, one after another in the order of the calls.
-/

namespace WireView

variable {t : ItemKind}

inductive Contribution (t : ItemKind) where
  | put (i : Nat) (x : Item t)
  | unpack (start most : Nat) (window : List UInt8)

namespace Contribution

def act (p : Endpoint t) : Contribution t → Action t Unit
  | .put i x => p.put i x
  | .unpack start most window => (fun _ => ()) <$> p.unpack start most window

def start : Contribution t → Nat
  | .put i _ => i
  | .unpack start _ _ => start

/-- The items that a call brings to a view of some length, from the index it begins at on. A single
item past the end is refused, and a window is taken as far as the view goes. -/
def items (length : Nat) : Contribution t → List (Item t)
  | .put i x => if i < length then [x] else []
  | .unpack start most window =>
    decodeMany t (min (min most (length - start)) (wholeItems t window.length)) window

def itemAt? (length i : Nat) (c : Contribution t) : Option (Item t) :=
  if c.start ≤ i then (c.items length)[i - c.start]? else none

/-- The memory after some calls, one after another. A refusal ends its call only. -/
def afterAll (p : Endpoint t) : List (Contribution t) → Memory t → Memory t
  | [], m => m
  | c :: cs, m => afterAll p cs (settle (c.act p) m).2

def itemsAt (length i : Nat) (cs : List (Contribution t)) : List (Item t) :=
  cs.filterMap (itemAt? length i)

section step

variable {p : Endpoint t} {m : Memory t}

theorem length_items_le (length : Nat) (c : Contribution t) :
    (c.items length).length ≤ length - c.start := by
  cases c with
  | put i x =>
    simp only [items, start]
    split
    · rw [List.length_singleton]
      omega
    · exact Nat.zero_le _
  | unpack start most window =>
    simp only [items, Contribution.start, length_decodeMany]
    omega

/-- A call puts the items that it brings, in order. -/
theorem settle_act (laid : p.view.Laid m) (c : Contribution t) :
    (settle (c.act p) m).2 = p.putAll c.start (c.items p.length) m := by
  cases c with
  | put i x =>
    rcases Nat.lt_or_ge i p.length with inside | past
    · have one : p.view.cells i 1 = [p.view.location i] := rfl
      simp only [act, settle, Endpoint.put_eq laid inside x, start, items, if_pos inside,
        Endpoint.putAll, List.length_singleton, one, List.zip_cons_cons, List.zip_nil_left,
        Memory.mergeAll_cons, Memory.mergeAll_nil]
    · simp only [act, settle, Endpoint.put_of_le past x, start, items, if_neg (Nat.not_lt.mpr past),
        Endpoint.putAll_nil]
  | unpack start most window =>
    rcases Nat.lt_or_ge p.length start with past | inside
    · have none : p.length - start = 0 := by omega
      simp only [act, settle, Functor.map, EStateM.map, Endpoint.unpack_of_lt past, items, none,
        Nat.min_zero, Nat.zero_min, decodeMany, Endpoint.putAll_nil]
    · simp only [act, settle, Functor.map, EStateM.map,
        Endpoint.unpack_eq laid inside most window rfl, items, Contribution.start]

theorem alike_settle_act (laid : p.view.Laid m) (c : Contribution t) :
    (settle (c.act p) m).2.Alike m := by
  rw [settle_act laid]
  exact p.alike_putAll _ _ m

/-- A call combines the stored item of an index with the one that it brings there, and leaves the
item as it is where it brings none. -/
theorem cell?_settle_act (laid : p.view.Laid m) (c : Contribution t) {i : Nat} (hi : i < p.length) :
    (settle (c.act p) m).2.cell? (p.view.location i) =
      (m.cell? (p.view.location i)).map fun y =>
        (c.itemAt? p.length i).toList.foldl (merged p.fold) y := by
  rw [settle_act laid]
  rcases Nat.eq_zero_or_pos (c.items p.length).length with empty | pos
  · simp [itemAt?, List.length_eq_zero_iff.mp empty]
  have fit : c.start + (c.items p.length).length ≤ p.length := by
    have most := length_items_le p.length c
    omega
  cases brought : c.itemAt? p.length i with
  | some x =>
    obtain ⟨after, hx⟩ : c.start ≤ i ∧ (c.items p.length)[i - c.start]? = some x := by
      simpa [itemAt?] using brought
    obtain ⟨y, old, new⟩ := Endpoint.cell?_putAll laid fit hx
    rw [Nat.add_sub_cancel' after] at old new
    rw [new, old]
    rfl
  | none =>
    have elsewhere : ∀ k < (c.items p.length).length,
        p.view.locate? (c.start + k) ≠ some (p.view.location i) := by
      intro k hk here
      have inside : c.start + k < p.view.length := (Nat.add_lt_add_left hk _).trans_le fit
      rw [View.locate?_eq inside] at here
      obtain rfl := View.location_injective laid.fits inside hi (Option.some.inj here)
      simp [itemAt?, hk] at brought
    rw [Endpoint.cell?_putAll_of_ne fit elsewhere]
    simp

end step

section run

variable {p : Endpoint t} {m : Memory t}

/-- After a run of calls an index holds what it held before, combined with all that came for it. -/
theorem cell?_afterAll (laid : p.view.Laid m) (cs : List (Contribution t)) {i : Nat}
    (hi : i < p.length) :
    (afterAll p cs m).cell? (p.view.location i) =
      (m.cell? (p.view.location i)).map ((itemsAt p.length i cs).foldl (merged p.fold)) := by
  induction cs generalizing m with
  | nil => simp [afterAll, itemsAt]
  | cons c cs ih =>
    have laid' := laid.alike (alike_settle_act laid c)
    rw [afterAll, ih laid', cell?_settle_act laid c hi, Option.map_map]
    congr 1
    funext y
    cases brought : c.itemAt? p.length i with
    | none => simp [itemsAt, brought]
    | some x => simp [itemsAt, brought]

theorem get_afterAll (laid : p.view.Laid m) (cs : List (Contribution t)) {i : Nat}
    (hi : i < p.length) :
    ∃ y, p.get i m = .ok y m ∧
      p.get i (afterAll p cs m) =
        .ok ((itemsAt p.length i cs).foldl (merged p.fold) y) (afterAll p cs m) := by
  obtain ⟨y, hy⟩ := Memory.mem_iff.mp (laid.location_mem hi)
  refine ⟨y, Endpoint.get_eq hi hy, Endpoint.get_eq hi ?_⟩
  rw [cell?_afterAll laid cs hi, hy]
  rfl

end run

end Contribution

end WireView
