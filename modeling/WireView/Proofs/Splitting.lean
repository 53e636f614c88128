import WireView.Proofs.Making
import WireView.Proofs.Runs

/-!
# How a block is split into runs

The loop that splits a stretch of items of a block takes what is left of the row it is in, or of
the stretch where that is less, pass after pass. A pass always takes something, so the loop comes
to its end, after one pass for each row that the stretch touches. Laid end to end its runs are the
slots of the items in order, each of them once.
-/

namespace WireView

/-- A run of at least one item that lies in one row of a block. -/
structure Run.InRow (g : Grid) (rows columns : IndexRange) (row : Nat) (r : Run) : Prop where
  row_lt : row < rows.length
  count_pos : 0 < r.count
  stride_eq : r.stride = columns.stride
  columns_le : ∃ column, r.first = View.rowHead g rows columns row + column * columns.stride ∧
    column + r.count ≤ columns.length

namespace View

section loop

variable (g : Grid) (rows columns : IndexRange)

/-- The run of the pass that begins at item `i`: the rest of its row, but not past `stop`. -/
def passRun (stop i : Nat) : Run where
  first := rowHead g rows columns (i / columns.length) + i % columns.length * columns.stride
  stride := columns.stride
  count := min (columns.length - i % columns.length) (stop - i)

/-- The loop that goes on from an item comes to its end, having handed out these runs, one in each
of its passes. A pass that took nothing would be made again, and then there would be no end. -/
inductive Splits (stop : Nat) : Nat → List Run → Prop where
  | done {i : Nat} (past : stop ≤ i) : Splits stop i []
  | pass {i : Nat} {rs : List Run} (more : i < stop)
      (rest : Splits stop (i + (passRun g rows columns stop i).count) rs) :
      Splits stop i (passRun g rows columns stop i :: rs)

def rowsTouched (i stop : Nat) : Nat :=
  if i < stop then (stop - 1) / columns.length - i / columns.length + 1 else 0

end loop

variable {g : Grid} {rows columns : IndexRange} {i stop k : Nat} {r : Run} {rs : List Run}

theorem blockRuns_of_lt (more : i < stop) :
    blockRuns g rows columns i stop =
      passRun g rows columns stop i ::
        blockRuns g rows columns (i + (passRun g rows columns stop i).count) stop := by
  rw [blockRuns, dif_pos more]
  rfl

theorem blockRuns_of_le (past : stop ≤ i) : blockRuns g rows columns i stop = [] := by
  rw [blockRuns, dif_neg (Nat.not_lt.mpr past)]

theorem splits_blockRuns (g : Grid) (rows columns : IndexRange) (i stop : Nat) :
    Splits g rows columns stop i (blockRuns g rows columns i stop) := by
  fun_induction blockRuns g rows columns i stop with
  | case1 i more column count ih => exact .pass more ih
  | case2 i done => exact .done (Nat.not_lt.mp done)

theorem Splits.eq_blockRuns (h : Splits g rows columns stop i rs) :
    rs = blockRuns g rows columns i stop := by
  induction h with
  | done past => exact (blockRuns_of_le past).symm
  | pass more _ ih => rw [blockRuns_of_lt more, ← ih]

theorem splits_iff : Splits g rows columns stop i rs ↔ rs = blockRuns g rows columns i stop := by
  constructor
  · exact Splits.eq_blockRuns
  · rintro rfl
    exact splits_blockRuns g rows columns i stop

theorem inRow_passRun (more : i < stop) (within : stop ≤ rows.length * columns.length) :
    (passRun g rows columns stop i).InRow g rows columns (i / columns.length) := by
  have column := column_lt columns i
  refine ⟨row_lt (Nat.lt_of_lt_of_le more within), ?_, rfl, i % columns.length, rfl, ?_⟩
  · simp only [passRun]
    omega
  · simp only [passRun]
    omega

/-- A pass that leaves items over has come to the end of its row. -/
theorem row_after_pass (further : i + (passRun g rows columns stop i).count < stop) :
    (i + (passRun g rows columns stop i).count) / columns.length = i / columns.length + 1 := by
  have column := column_lt columns i
  have split := Nat.mod_add_div i columns.length
  have next : i + (passRun g rows columns stop i).count =
      columns.length * (i / columns.length + 1) := by
    simp only [passRun] at further ⊢
    rw [Nat.mul_succ]
    omega
  rw [next]
  exact Nat.mul_div_cancel_left _ columns.length_pos

/-- A pass that leaves nothing over began in the row of the last item. -/
theorem row_of_last_pass (more : i < stop)
    (last : stop ≤ i + (passRun g rows columns stop i).count) :
    (stop - 1) / columns.length = i / columns.length := by
  have column := column_lt columns i
  have split := Nat.mod_add_div i columns.length
  simp only [passRun] at last
  apply Nat.div_eq_of_lt_le
  · rw [Nat.mul_comm]
    omega
  · rw [Nat.mul_comm, Nat.mul_succ]
    omega

/-- The runs lie in one row after the other. -/
theorem Splits.inRow (h : Splits g rows columns stop i rs)
    (within : stop ≤ rows.length * columns.length) (found : rs[k]? = some r) :
    r.InRow g rows columns (i / columns.length + k) := by
  induction h generalizing k with
  | done past => cases found
  | @pass i rs more rest ih =>
    cases k with
    | zero =>
      cases found
      exact inRow_passRun more within
    | succ k =>
      have later := ih found
      -- There is a later run only if this pass left items over, and then it ended its row.
      cases rest with
      | done past => cases found
      | pass further _ =>
        rw [row_after_pass further] at later
        rwa [Nat.add_right_comm, Nat.add_assoc] at later

/-- There is one pass for each row. -/
theorem Splits.length_eq (h : Splits g rows columns stop i rs) :
    rs.length = rowsTouched columns i stop := by
  induction h with
  | done past => exact (if_neg (Nat.not_lt.mpr past)).symm
  | @pass i rs more rest ih =>
    rw [List.length_cons, ih, rowsTouched, rowsTouched, if_pos more]
    cases rest with
    | done past =>
      have same := row_of_last_pass more past
      rw [if_neg (Nat.not_lt.mpr past), same, Nat.sub_self]
    | pass further _ =>
      have next := row_after_pass further
      have last : (i + (passRun g rows columns stop i).count) / columns.length ≤
          (stop - 1) / columns.length := Nat.div_le_div_right (by omega)
      rw [if_pos further]
      omega

/-- The slots of a stretch of items increase. -/
theorem pairwise_slots {v : View} {start n : Nat} (fits : v.Fits) (hn : start + n ≤ v.length) :
    ((List.range' start n).map v.slot).Pairwise (· < ·) := by
  rw [List.pairwise_map]
  refine List.Pairwise.imp_of_mem ?_ List.pairwise_lt_range'
  intro i j _ hj hij
  rw [List.mem_range'_1] at hj
  exact slot_strictMono fits hij (by omega)

/-- The loop over any stretch of a block that was made comes to an end, in one way only and after
one pass for each row that the stretch touches. Each run holds an item or more and lies in one row,
and the runs laid end to end are the slots of the items in order, all within the storage. -/
theorem runs_partition_block {t : ItemKind} {m : Memory t} {start n : Nat}
    (made : Made m (block g rows columns)) (hn : start + n ≤ (block g rows columns).length) :
    let runs := (block g rows columns).runs start n
    (∀ rs, Splits g rows columns (start + n) start rs ↔ rs = runs) ∧
      runs.length = rowsTouched columns start (start + n) ∧
      (∀ k (r : Run), runs[k]? = some r → r.InRow g rows columns (start / columns.length + k)) ∧
      runs.flatMap Run.slots = (List.range' start n).map (block g rows columns).slot ∧
      (runs.flatMap Run.slots).Pairwise (· < ·) ∧
      ∀ s ∈ runs.flatMap Run.slots, s < m.extent g.storage.bank := by
  intro runs
  have laid := laid_of_made made
  have held : m.extent g.storage.bank = g.storage.extent := laid.held g.storage rfl
  have ends : Splits g rows columns (start + n) start runs := splits_iff.mpr rfl
  have cover : runs.flatMap Run.slots =
      (List.range' start n).map (block g rows columns).slot := by
    have slots := slots_blockRuns g rows columns start (start + n)
    rwa [Nat.add_sub_cancel_left] at slots
  refine ⟨fun rs => splits_iff, ends.length_eq, fun k r found => ends.inRow hn found, cover, ?_, ?_⟩
  · rw [cover]
    exact pairwise_slots laid.fits hn
  · intro s hs
    rw [cover] at hs
    obtain ⟨i, hi, rfl⟩ := List.mem_map.mp hs
    rw [List.mem_range'_1] at hi
    rw [held]
    exact slot_lt laid.fits rfl (by omega)

/-- Three rows of a matrix and every second of its columns. From the second item on, six items are
what is left of the first row, all of the next and the start of the last. -/
theorem runs_partition_block_from_second :
    let square : Grid := ⟨⟨0, 20⟩, 4, 5, rfl⟩
    let rows : IndexRange := ⟨1, 1, 3, by decide, by decide⟩
    let columns : IndexRange := ⟨0, 2, 3, by decide, by decide⟩
    let m : Memory .int8 := ⟨#[Array.replicate 20 7]⟩
    let runs : List Run := [⟨7, 2, 2⟩, ⟨10, 2, 3⟩, ⟨15, 2, 1⟩]
    Made m (block square rows columns) ∧ 1 + 6 ≤ (block square rows columns).length ∧
      Splits square rows columns 7 1 runs ∧ rowsTouched columns 1 7 = 3 ∧
      Run.InRow square rows columns 2 ⟨15, 2, 1⟩ ∧
      (List.range' 1 6).map (block square rows columns).slot = [7, 9, 10, 12, 14, 15] ∧
      ∀ s ∈ runs.flatMap Run.slots, s < 20 := by
  intro square rows columns m runs
  have held : m.Holds square.storage := rfl
  have cut : cutBlock square rows columns = .ok (block square rows columns) := rfl
  have made : Made m (block square rows columns) := .cutBlock held cut
  have inside : 1 + 6 ≤ (block square rows columns).length := by decide
  have split : (block square rows columns).runs 1 6 = runs := by decide +kernel
  obtain ⟨ends, touched, inRow, cover, -, below⟩ := runs_partition_block made inside
  rw [split] at ends touched inRow cover below
  have row : 1 / columns.length = 0 := by decide
  have third := inRow 2 ⟨15, 2, 1⟩ rfl
  rw [row] at third
  exact ⟨made, inside, (ends runs).mpr rfl, touched.symm, third, cover.symm, below⟩

end View

end WireView
