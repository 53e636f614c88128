import WireView.View.Run
import WireView.Proofs.Layout

/-!
# Going through a view by runs

The runs of a stretch of items name the slots of these items in order: a run of a block ends with
its row or with the stretch, so within a run the row stays and the column advances. Each run lies
in the storage of the view. A walk through the runs is therefore one visit to the cells of
the items, whatever form the view has.
-/

namespace WireView

namespace Run

/-- A run that is not empty and has all its slots within a storage. -/
structure Within (r : Run) (extent : Nat) : Prop where
  count_pos : 0 < r.count
  slot_lt : ∀ s ∈ r.slots, s < extent

variable {r : Run} {extent : Nat}

theorem slots_eq_map (r : Run) :
    r.slots = (List.range r.count).map fun k => r.first + k * r.stride := by
  apply List.ext_getElem (by simp [slots])
  intro k hk hk'
  simp [slots, Nat.mul_comm]

theorem Within.first_lt (h : r.Within extent) : r.first < extent := by
  apply h.slot_lt
  rw [slots_eq_map]
  exact List.mem_map.mpr ⟨0, List.mem_range.mpr h.count_pos, by simp⟩

theorem span_eq (h : r.Within extent) (unit : r.stride = 1) : r.span extent = .ok r.slots := by
  have last : r.first + (r.count - 1) < extent := by
    apply h.slot_lt
    rw [slots_eq_map]
    exact List.mem_map.mpr ⟨r.count - 1, List.mem_range.mpr (by have := h.count_pos; omega),
      by rw [unit, Nat.mul_one]⟩
  rw [span, if_pos (by omega), slots, unit]

theorem steps_eq (h : r.Within extent) : r.steps extent = .ok r.slots := by
  have inside : r.slots.filter (· < extent) = r.slots := by
    apply List.filter_eq_self.mpr
    intro s hs
    exact decide_eq_true (h.slot_lt s hs)
  rw [steps, if_pos (Nat.le_of_lt h.first_lt), inside]

end Run

namespace View

theorem slotsOf_eq {v : View} {r : Run} {extent : Nat} (h : r.Within extent)
    (unit : v.IsDense → r.stride = 1) : v.slotsOf r extent = .ok r.slots := by
  by_cases dense : v.IsDense
  · cases v <;> simp only [slotsOf, if_pos dense, Run.span_eq h (unit dense)]
  · cases v <;> simp only [slotsOf, if_neg dense, Run.steps_eq h]

section block

variable (g : Grid) (rows columns : IndexRange)

/-- Within a row, the next column is one stride on. -/
theorem slot_block_add {i k : Nat} (inRow : i % columns.length + k < columns.length) :
    (block g rows columns).slot (i + k) =
      rowHead g rows columns (i / columns.length) + (i % columns.length + k) * columns.stride := by
  have pos := columns.length_pos
  have split : i + k = (i % columns.length + k) + columns.length * (i / columns.length) := by
    have := Nat.mod_add_div i columns.length
    omega
  have row : (i + k) / columns.length = i / columns.length := by
    rw [split, Nat.add_mul_div_left _ _ pos, Nat.div_eq_of_lt inRow, Nat.zero_add]
  have column : (i + k) % columns.length = i % columns.length + k := by
    rw [split, Nat.add_mul_mod_self_left, Nat.mod_eq_of_lt inRow]
  have away := columns.position_add 0 (i % columns.length + k)
  rw [Nat.zero_add] at away
  simp only [slot, rowHead, row, column, away, Nat.add_assoc]

/-- A run of a block that starts at item `i` and ends within its row has the slots of the items
from `i` on. -/
theorem slots_in_row {i count : Nat} (inRow : count ≤ columns.length - i % columns.length) :
    Run.slots ⟨rowHead g rows columns (i / columns.length) + i % columns.length * columns.stride,
        columns.stride, count⟩ =
      (List.range' i count).map (block g rows columns).slot := by
  rw [Run.slots_eq_map, List.range'_eq_map_range, List.map_map]
  apply List.map_congr_left
  intro k hk
  have hk' : k < count := List.mem_range.mp hk
  simp only [Function.comp]
  rw [slot_block_add g rows columns (by omega), Nat.add_mul, Nat.add_assoc]

theorem slots_blockRuns (i stop : Nat) :
    (blockRuns g rows columns i stop).flatMap Run.slots =
      (List.range' i (stop - i)).map (block g rows columns).slot := by
  fun_induction blockRuns g rows columns i stop with
  | case1 i _ column count ih =>
    have positive : column < columns.length := column_lt columns i
    have split : List.range' i (stop - i) =
        List.range' i count ++ List.range' (i + count) (stop - (i + count)) := by
      rw [List.range'_append_1]
      congr 1
      omega
    rw [List.flatMap_cons, ih, slots_in_row g rows columns (Nat.min_le_left _ _), split,
      List.map_append]
  | case2 i done =>
    have none : stop - i = 0 := by omega
    simp [none]

theorem mem_blockRuns {i stop : Nat} {r : Run} (h : r ∈ blockRuns g rows columns i stop) :
    0 < r.count ∧ r.stride = columns.stride := by
  fun_induction blockRuns g rows columns i stop with
  | case1 i _ column count ih =>
    have positive : column < columns.length := column_lt columns i
    rcases List.mem_cons.mp h with first | later
    · subst r
      exact ⟨by simp only; omega, rfl⟩
    · exact ih later
  | case2 => cases h

end block

variable {t : ItemKind} {v : View} {m : Memory t} {start n : Nat}

theorem slots_runs (pos : 0 < n) (hn : start + n ≤ v.length) :
    (v.runs start n).flatMap Run.slots = (List.range' start n).map v.slot := by
  have slice (range : IndexRange) :
      Run.slots ⟨range.position start, range.stride, n⟩ =
        (List.range' start n).map range.position := by
    simp only [Run.slots_eq_map, List.range'_eq_map_range, List.map_map, Function.comp_def,
      IndexRange.position_add]
  have single (only : start + n ≤ 1) : start = 0 ∧ n = 1 := by omega
  cases v with
  | empty => exact absurd hn (by simp only [length]; omega)
  | array s range => exact (List.append_nil _).trans (slice range)
  | shared s range => exact (List.append_nil _).trans (slice range)
  | block g rows columns =>
    have cover := slots_blockRuns g rows columns start (start + n)
    rwa [Nat.add_sub_cancel_left] at cover
  | scalar b => obtain ⟨rfl, rfl⟩ := single hn; rfl
  | cell b => obtain ⟨rfl, rfl⟩ := single hn; rfl

theorem mem_runs (pos : 0 < n) {r : Run} (h : r ∈ v.runs start n) :
    0 < r.count ∧ (v.IsDense → r.stride = 1) := by
  cases v with
  | empty => cases h
  | array s range => cases List.mem_singleton.mp h; exact ⟨pos, id⟩
  | shared s range => cases List.mem_singleton.mp h; exact ⟨pos, id⟩
  | block g rows columns =>
    obtain ⟨count, stride⟩ := mem_blockRuns g rows columns h
    exact ⟨count, fun dense => stride.trans dense.2⟩
  | scalar b => cases List.mem_singleton.mp h; exact ⟨Nat.one_pos, fun _ => rfl⟩
  | cell b => cases List.mem_singleton.mp h; exact ⟨Nat.one_pos, fun _ => rfl⟩

theorem within_runs {s : Region} (fits : v.Fits) (hs : v.region? = some s) (pos : 0 < n)
    (hn : start + n ≤ v.length) {r : Run} (h : r ∈ v.runs start n) : r.Within s.extent := by
  refine ⟨(mem_runs pos h).1, ?_⟩
  intro k hk
  have listed : k ∈ (v.runs start n).flatMap Run.slots := List.mem_flatMap.mpr ⟨r, h, hk⟩
  rw [slots_runs pos hn] at listed
  obtain ⟨i, hi, rfl⟩ := List.mem_map.mp listed
  rw [List.mem_range'_1] at hi
  exact slot_lt fits hs (by omega)

theorem enter_eq {s : Region} (hs : v.bank? = some s.bank) (held : m.Holds s) {r : Run}
    (h : r.Within s.extent) (unit : v.IsDense → r.stride = 1) :
    v.enter r m = .ok (r.slots.map (Location.mk s.bank)) m := by
  have extent : m.extent s.bank = s.extent := held
  have known : extentOf s.bank m = .ok s.extent m := by simp only [extentOf, extent]
  have entered : (liftStep (v.slotsOf r s.extent) : Action t (List Nat)) m = .ok r.slots m := by
    simp only [liftStep, slotsOf_eq h unit]
  unfold enter
  rw [hs]
  exact (bind_of_ok known).trans (bind_of_ok entered)

/-- A visit that takes lists of cells piece by piece may take the cells of all runs at once. -/
theorem throughRuns_eq_visit {σ : Type} {visit : List Location → σ → Action t σ}
    (visit_nil : ∀ x, visit [] x = pure x)
    (visit_append : ∀ ls ks x, visit (ls ++ ks) x = visit ls x >>= visit ks)
    (visit_ok : ∀ ls x (m : Memory t), (∀ l ∈ ls, l ∈ m) →
      ∃ y m', visit ls x m = .ok y m' ∧ m'.Alike m)
    {s : Region} (hs : v.bank? = some s.bank) {rs : List Run}
    (within : ∀ r ∈ rs, r.Within s.extent) (unit : ∀ r ∈ rs, v.IsDense → r.stride = 1)
    (held : m.Holds s) (x : σ) :
    v.throughRuns visit rs x m =
      visit (rs.flatMap fun r => r.slots.map (Location.mk s.bank)) x m := by
  induction rs generalizing m x with
  | nil => rw [throughRuns, List.flatMap_nil, visit_nil]
  | cons r rs ih =>
    have entered := enter_eq hs held (within r List.mem_cons_self) (unit r List.mem_cons_self)
    have present : ∀ l ∈ r.slots.map (Location.mk s.bank), l ∈ m := by
      intro l hl
      obtain ⟨k, hk, rfl⟩ := List.mem_map.mp hl
      rw [Memory.mem_iff_slot]
      exact Nat.lt_of_lt_of_eq ((within r List.mem_cons_self).slot_lt k hk) (Eq.symm held)
    obtain ⟨y, m', visited, alike⟩ := visit_ok _ x m present
    have held' : m'.Holds s := (alike.extent s.bank).trans held
    have tail := ih (fun r hr => within r (List.mem_cons_of_mem _ hr))
      (fun r hr => unit r (List.mem_cons_of_mem _ hr)) held' y
    calc
      v.throughRuns visit (r :: rs) x m = (visit _ x >>= v.throughRuns visit rs) m :=
        bind_of_ok entered
      _ = v.throughRuns visit rs y m' := bind_of_ok visited
      _ = visit _ y m' := tail
      _ = (visit _ x >>= visit _) m := (bind_of_ok visited).symm
      _ = visit _ x m := by rw [List.flatMap_cons, visit_append]

/-- The walk through the runs of `n` items visits the cells of these items. -/
theorem throughRuns_runs {σ : Type} {visit : List Location → σ → Action t σ}
    (visit_nil : ∀ x, visit [] x = pure x)
    (visit_append : ∀ ls ks x, visit (ls ++ ks) x = visit ls x >>= visit ks)
    (visit_ok : ∀ ls x (m : Memory t), (∀ l ∈ ls, l ∈ m) →
      ∃ y m', visit ls x m = .ok y m' ∧ m'.Alike m)
    (laid : v.Laid m) (pos : 0 < n) (hn : start + n ≤ v.length) (x : σ) :
    v.throughRuns visit (v.runs start n) x m = visit (v.cells start n) x m := by
  obtain ⟨s, hs, hb, hl⟩ := region_of_lt (v := v) (i := start) (by omega)
  have listed : ((v.runs start n).flatMap fun r => r.slots.map (Location.mk s.bank)) =
      v.cells start n := by
    rw [← List.map_flatMap, slots_runs pos hn, List.map_map, cells]
    exact List.map_congr_left fun i _ => (hl i).symm
  rw [throughRuns_eq_visit visit_nil visit_append visit_ok hb
    (fun r hr => within_runs laid.fits hs pos hn hr) (fun r hr => (mem_runs pos hr).2)
    (laid.held s hs) x, listed]

end View

end WireView
