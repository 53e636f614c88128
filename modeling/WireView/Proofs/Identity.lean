import Mathlib.Order.Nat
import WireView.Proofs.Copying

/-!
# What an identity tells

The identity of a view names its bank and its ranges and leaves out how wide the rows of a matrix
are. So two views of one identity have the same cells just when they agree on the pitch, and a
plain copy, which does nothing between views of one identity, agrees with the item loop just when
the identity tells the truth in this sense.
-/

namespace WireView

namespace IndexRange

theorem position_le_upper {r : IndexRange} {i : Nat} (low : 0 ≤ r.lower) (hi : i < r.length) :
    (r.position i : Int) ≤ r.upper := by
  have last : i * r.stride ≤ (r.length - 1) * r.stride := Nat.mul_le_mul_right _ (by omega)
  simp only [upper, position]
  omega

theorem position_last {r : IndexRange} (low : 0 ≤ r.lower) :
    (r.position (r.length - 1) : Int) = r.upper := by
  simp only [upper, position]
  omega

end IndexRange

namespace View

/-- The distance from one row of a matrix to the next, for a block that reaches past the first
row. No cell of any other view depends on it. -/
def pitch? : View → Option Nat
  | block g rows _ => if rows.upper = 0 then none else some g.columns
  | empty | array _ _ | scalar _ | cell _ | shared _ _ => none

variable {v w : View} {a b : Bool} {i : Nat}

theorem length_eq_of_identity (same : v.identity a = w.identity b) : v.length = w.length := by
  cases v <;> cases w <;> simp_all [identity, bank?, length]

theorem bank?_eq_of_identity (same : v.identity a = w.identity b) : v.bank? = w.bank? := by
  cases v <;> cases w <;> simp_all [identity, bank?]

/-- In the first row of a matrix, the slot of an item is its column. -/
theorem slot_first_row {g : Grid} {rows columns : IndexRange} (fits : (block g rows columns).Fits)
    (first : rows.upper = 0) (hi : i < (block g rows columns).length) :
    (block g rows columns).slot i = columns.position (i % columns.length) := by
  have top := rows.position_le_upper fits.1.1 (row_lt hi)
  have zero : rows.position (i / columns.length) = 0 := by omega
  rw [slot, zero, Nat.zero_mul, Nat.zero_add]

theorem slot_eq_of_identity (fv : v.Fits) (fw : w.Fits) (same : v.identity a = w.identity b)
    (pitch : v.pitch? = w.pitch?) (hi : i < v.length) : v.slot i = w.slot i := by
  by_cases blocks : ∃ g rows columns, v = block g rows columns
  · obtain ⟨g, rows, columns, rfl⟩ := blocks
    obtain ⟨g', rfl⟩ : ∃ g', w = block g' rows columns := by
      cases w <;> simp_all [identity, bank?]
    by_cases first : rows.upper = 0
    · rw [slot_first_row fv first hi, slot_first_row fw first hi]
    · have wide : g.columns = g'.columns := by simpa [pitch?, first] using pitch
      simp only [slot, wide]
  · cases v <;> cases w <;> simp_all [identity, bank?, slot]

theorem location_eq_of_identity (fv : v.Fits) (fw : w.Fits) (same : v.identity a = w.identity b)
    (pitch : v.pitch? = w.pitch?) (hi : i < v.length) : v.location i = w.location i := by
  rw [location, location, bank?_eq_of_identity same, slot_eq_of_identity fv fw same pitch hi]

/-- Views of one identity that differ in pitch part at the first item of their last row. -/
theorem location_ne_of_pitch (fv : v.Fits) (same : v.identity a = w.identity b)
    (pitch : v.pitch? ≠ w.pitch?) : ∃ i < v.length, v.location i ≠ w.location i := by
  have blocks : ∃ g g' rows columns, v = block g rows columns ∧ w = block g' rows columns := by
    cases v <;> cases w <;> simp_all [identity, bank?, pitch?]
  obtain ⟨g, g', rows, columns, rfl, rfl⟩ := blocks
  have further : rows.upper ≠ 0 := by
    intro first
    simp [pitch?, first] at pitch
  have wide : g.columns ≠ g'.columns := by simpa [pitch?, further] using pitch
  have pos := columns.length_pos
  have rowsPos := rows.length_pos
  refine ⟨(rows.length - 1) * columns.length, Nat.mul_lt_mul_of_pos_right (by omega) pos, ?_⟩
  intro meet
  have slots := congrArg Location.slot meet
  have last := rows.position_last fv.1.1
  simp only [location, slot, Nat.mul_div_cancel _ pos, Nat.mul_mod_left,
    Nat.add_right_cancel_iff] at slots
  exact wide (Nat.eq_of_mul_eq_mul_left (by omega) slots)

/-- Views of one identity have the same cells just when their pitch is the same. -/
theorem locate?_eq_iff_pitch (fv : v.Fits) (fw : w.Fits) (same : v.identity a = w.identity b) :
    (∀ i < v.length, v.locate? i = w.locate? i) ↔ v.pitch? = w.pitch? := by
  have len := length_eq_of_identity same
  constructor
  · intro cells
    by_cases pitch : v.pitch? = w.pitch?
    · exact pitch
    · obtain ⟨i, hi, differ⟩ := location_ne_of_pitch fv same pitch
      have meet := cells i hi
      rw [locate?_eq hi, locate?_eq (len ▸ hi)] at meet
      exact False.elim (differ (Option.some.inj meet))
  · intro pitch i hi
    rw [locate?_eq hi, locate?_eq (len ▸ hi), location_eq_of_identity fv fw same pitch hi]

end View

namespace Memory

variable {t : ItemKind} {m : Memory t}

theorem carry_self (m : Memory t) (l : Location) : m.carry none (l, l) = m := by
  cases h : m.cell? l with
  | none => simp only [carry, h]
  | some x =>
    simp only [carry, h]
    apply ext_cells (alike_merge none m l x).size
    intro k
    rw [cell?_merge]
    by_cases hk : k = l
    · simp only [hk, if_true, h, Option.map_some, merged]
    · rw [if_neg hk]

/-- Writing each item back to where it was read changes nothing. -/
theorem carryAll_self {ws : List Step} (m : Memory t) (still : ∀ w ∈ ws, w.1 = w.2) :
    m.carryAll none ws = m := by
  induction ws with
  | nil => rfl
  | cons w ws ih =>
    obtain ⟨l, k⟩ := w
    obtain rfl : l = k := still _ List.mem_cons_self
    rw [carryAll_cons, carry_self]
    exact ih fun w hw => still w (List.mem_cons_of_mem _ hw)

theorem cell?_carry_of_ne (fold : Option (Fold (Item t))) (m : Memory t) {w : Step} {l : Location}
    (other : l ≠ w.2) : (m.carry fold w).cell? l = m.cell? l := by
  unfold carry
  split
  · exact cell?_merge_of_ne fold m _ other
  · rfl

theorem cell?_carryAll_of_ne (fold : Option (Fold (Item t))) (m : Memory t) {ws : List Step}
    {l : Location} (other : ∀ w ∈ ws, l ≠ w.2) : (m.carryAll fold ws).cell? l = m.cell? l := by
  induction ws generalizing m with
  | nil => rfl
  | cons w ws ih =>
    rw [carryAll_cons, ih _ fun v hv => other v (List.mem_cons_of_mem w hv)]
    exact cell?_carry_of_ne fold m (other w List.mem_cons_self)

end Memory

theorem exists_ne_item {t : ItemKind} (x : Item t) : ∃ y : Item t, y ≠ x := by
  have ne : (1 : Item t) ≠ 0 := by cases t <;> decide
  by_cases zero : x = 0
  · exact ⟨1, zero ▸ ne⟩
  · exact ⟨0, fun h => zero h.symm⟩

namespace View

variable {t : ItemKind} {v w : View} {m : Memory t} {n : Nat}

theorem mem_steps {start : Nat} {s : Step} (h : s ∈ w.steps v start n) :
    ∃ i, start ≤ i ∧ i < start + n ∧ s = (w.location i, v.location i) := by
  rw [steps, cells, cells, List.zip_map'] at h
  obtain ⟨i, hi, rfl⟩ := List.mem_map.mp h
  rw [List.mem_range'_1] at hi
  exact ⟨i, hi.1, hi.2, rfl⟩

/-- Up to the first item with two different cells a plain copy moves nothing, and after that item
no step returns to the cell it was written to. -/
theorem cell?_first_apart (fits : v.Fits) (hv : n ≤ v.length) {i : Nat} (hi : i < n)
    (before : ∀ j < i, v.location j = w.location j) {x : Item t}
    (source : m.cell? (w.location i) = some x) (target : v.location i ∈ m) :
    (m.carryAll none (w.steps v 0 n)).cell? (v.location i) = some x := by
  have count : i + (n - (i + 1) + 1) = n := by omega
  have split := w.steps_add v 0 i (n - (i + 1) + 1)
  rw [count, Nat.zero_add, steps_succ] at split
  have still : m.carryAll none (w.steps v 0 i) = m := by
    apply Memory.carryAll_self
    intro s hs
    obtain ⟨j, _, hj, rfl⟩ := mem_steps hs
    exact (before j (by omega)).symm
  have moved : m.carry none (w.location i, v.location i) = m.merge none (v.location i) x := by
    simp only [Memory.carry, source]
  have after : ∀ s ∈ w.steps v (i + 1) (n - (i + 1)), v.location i ≠ s.2 := by
    intro s hs
    obtain ⟨j, hj, hjn, rfl⟩ := mem_steps hs
    intro meet
    have := location_injective fits (by omega) (by omega) meet
    omega
  obtain ⟨z, hz⟩ := Memory.mem_iff.mp target
  rw [split, Memory.carryAll_append, Memory.carryAll_cons, still, moved,
    Memory.cell?_carryAll_of_ne none _ after, Memory.cell?_merge, if_pos rfl, hz]
  rfl

theorem exists_carryAll_ne (lv : v.Laid m) (lw : w.Laid m) (hv : n ≤ v.length) (hw : n ≤ w.length)
    (apart : ∃ i < n, v.location i ≠ w.location i) :
    ∃ m' : Memory t, m'.Alike m ∧ m'.carryAll none (w.steps v 0 n) ≠ m' := by
  obtain ⟨hi, differ⟩ := Nat.find_spec apart
  have before : ∀ j < Nat.find apart, v.location j = w.location j := by
    intro j hj
    by_cases h : v.location j = w.location j
    · exact h
    · exact False.elim (Nat.find_min apart hj ⟨by omega, h⟩)
  generalize Nat.find apart = i at hi differ before
  obtain ⟨x, hx⟩ := Memory.mem_iff.mp (lw.location_mem (i := i) (by omega))
  have target : v.location i ∈ m := lv.location_mem (by omega)
  obtain ⟨z, hz⟩ := Memory.mem_iff.mp target
  -- The contents that show the difference hold at the target something else than at the source.
  obtain ⟨y, hy⟩ := exists_ne_item x
  have alike := Memory.alike_write m (v.location i) y
  refine ⟨m.write (v.location i) y, alike, ?_⟩
  intro unchanged
  have source : (m.write (v.location i) y).cell? (w.location i) = some x := by
    rw [Memory.cell?_write, if_neg (fun h => differ h.symm), hx]
  have final := cell?_first_apart lv.fits hv hi before source (alike.mem_iff.mpr target)
  rw [unchanged, Memory.cell?_write, if_pos rfl, hz] at final
  exact hy (Option.some.inj final)

/-- Between endpoints of one identity a copy does nothing. -/
theorem absorb_of_same {p q : Endpoint t} (same : q.identity = p.identity) :
    p.absorb q m = .ok () m := by
  rw [Endpoint.absorb, if_pos same]
  rfl

/-- A plain copy and the item loop agree on all contents just when views of one identity have
one pitch. -/
theorem absorb_plain_iff (lv : v.Laid m) (lw : w.Laid m) :
    (∀ m' : Memory t, m'.Alike m →
      Endpoint.absorb ⟨v, none⟩ ⟨w, none⟩ m' = Endpoint.absorbItems ⟨v, none⟩ ⟨w, none⟩ m') ↔
    (w.identity false = v.identity false → v.pitch? = w.pitch?) := by
  constructor
  · intro agree same
    have len : w.length = v.length := length_eq_of_identity same
    by_cases pitch : v.pitch? = w.pitch?
    · exact pitch
    · have apart := location_ne_of_pitch lv.fits same.symm pitch
      obtain ⟨m', alike, moved⟩ :=
        exists_carryAll_ne lv lw (Nat.le_refl _) (Nat.le_of_eq len.symm) apart
      have loop := absorbItems_eq (p := ⟨v, none⟩) (q := ⟨w, none⟩) (lv.alike alike)
        (lw.alike alike)
      have idle : Endpoint.absorb ⟨v, none⟩ ⟨w, none⟩ m' = .ok () m' := absorb_of_same same
      rw [← agree m' alike, idle, Endpoint.length, Endpoint.length, len, Nat.min_self] at loop
      injection loop with _ loop
      exact False.elim (moved loop.symm)
  · intro truth m' alike
    have loop := absorbItems_eq (p := ⟨v, none⟩) (q := ⟨w, none⟩) (lv.alike alike)
      (lw.alike alike)
    by_cases same : w.identity false = v.identity false
    · have still : ∀ s ∈ w.steps v 0 (min w.length v.length), s.1 = s.2 := by
        intro s hs
        obtain ⟨i, _, hi, rfl⟩ := mem_steps hs
        exact location_eq_of_identity lw.fits lv.fits same (truth same).symm (by omega)
      have idle : Endpoint.absorb ⟨v, none⟩ ⟨w, none⟩ m' = .ok () m' := absorb_of_same same
      rw [idle, loop]
      exact congrArg _ (Memory.carryAll_self m' still).symm
    · rw [loop]
      exact absorb_eq (lv.alike alike) (lw.alike alike) same

/-- What an identity tells: views that share one are of one length, and have the same cells and
copy as the item loop does exactly when their pitch is the same. -/
theorem identity_sound_iff_pitch (v w : View) (m : Memory t) (lv : v.Laid m) (lw : w.Laid m) :
    (∀ a b, v.identity a = w.identity b → v.length = w.length ∧
      ((∀ i < v.length, v.locate? i = w.locate? i) ↔ v.pitch? = w.pitch?)) ∧
    ((∀ m' : Memory t, m'.Alike m →
        Endpoint.absorb ⟨v, none⟩ ⟨w, none⟩ m' = Endpoint.absorbItems ⟨v, none⟩ ⟨w, none⟩ m') ↔
      (w.identity false = v.identity false → v.pitch? = w.pitch?)) := by
  constructor
  · intro a b same
    exact ⟨length_eq_of_identity same, locate?_eq_iff_pitch lv.fits lw.fits same⟩
  · exact absorb_plain_iff lv lw

/-- The first column of a square matrix over four cells. -/
def squareColumn : View :=
  .block ⟨⟨0, 4⟩, 2, 2, rfl⟩ ⟨0, 1, 2, by decide, by decide⟩ ⟨0, 1, 1, by decide, by decide⟩

/-- The first two rows of a matrix of one column over the same cells. -/
def tallColumn : View :=
  .block ⟨⟨0, 4⟩, 4, 1, rfl⟩ ⟨0, 1, 2, by decide, by decide⟩ ⟨0, 1, 1, by decide, by decide⟩

def fourItems : Memory .int8 := ⟨#[#[1, 2, 3, 4]]⟩

theorem identity_sound_iff_pitch_of_columns :
    squareColumn.Laid fourItems ∧ tallColumn.Laid fourItems ∧
      squareColumn.identity false = tallColumn.identity false ∧
      ¬(∀ i < squareColumn.length, squareColumn.locate? i = tallColumn.locate? i) ∧
      ¬(∀ m', m'.Alike fourItems →
        Endpoint.absorb ⟨squareColumn, none⟩ ⟨tallColumn, none⟩ m' =
          Endpoint.absorbItems ⟨squareColumn, none⟩ ⟨tallColumn, none⟩ m') := by
  have lv : squareColumn.Laid fourItems := by decide
  have lw : tallColumn.Laid fourItems := by decide
  have same : squareColumn.identity false = tallColumn.identity false := rfl
  have apart : squareColumn.pitch? ≠ tallColumn.pitch? := by decide
  obtain ⟨cells, copies⟩ := identity_sound_iff_pitch squareColumn tallColumn fourItems lv lw
  refine ⟨lv, lw, same, ?_, ?_⟩
  · intro agree
    exact apart ((cells false false same).2.mp agree)
  · intro agree
    exact apart (copies.mp agree same.symm)

/-- The second item of either column is another cell. A copy of the one to the other does nothing,
and the item loop changes the third cell. -/
theorem copy_between_columns_does_nothing :
    squareColumn.identity false = tallColumn.identity false ∧
      squareColumn.locate? 1 = some ⟨0, 2⟩ ∧ tallColumn.locate? 1 = some ⟨0, 1⟩ ∧
      Endpoint.absorb ⟨squareColumn, none⟩ ⟨tallColumn, none⟩ fourItems = .ok () fourItems ∧
      Endpoint.absorbItems ⟨squareColumn, none⟩ ⟨tallColumn, none⟩ fourItems =
        .ok () ⟨#[#[1, 2, 2, 4]]⟩ :=
  ⟨rfl, rfl, rfl, rfl, rfl⟩

end View

end WireView
