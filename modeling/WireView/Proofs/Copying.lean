import WireView.Endpoint.Absorb
import WireView.Proofs.Unpacking

/-!
# Copying under overlap

A copy is known by its steps: which cell is read and which is written, in order. The item loop, the
walk along two slices and the walk along the rows of two blocks take the same steps, so they agree
for any contents and however the two views share cells. Nothing here supposes them disjoint.
-/

namespace WireView

variable {t : ItemKind}

/-- One step of a copy: the cell that is read and the cell that is written. -/
abbrev Step := Location × Location

namespace Memory

variable (fold : Option (Fold (Item t))) (m : Memory t)

def carry (w : Step) : Memory t :=
  match m.cell? w.1 with
  | some x => m.merge fold w.2 x
  | none => m

def carryAll (ws : List Step) : Memory t := ws.foldl (carry fold) m

@[simp] theorem carryAll_cons (w : Step) (ws : List Step) :
    m.carryAll fold (w :: ws) = (m.carry fold w).carryAll fold ws := rfl

theorem carryAll_append (ws vs : List Step) :
    m.carryAll fold (ws ++ vs) = (m.carryAll fold ws).carryAll fold vs :=
  List.foldl_append

theorem alike_carry (w : Step) : (m.carry fold w).Alike m := by
  unfold carry
  split
  · exact alike_merge fold m w.2 _
  · exact Alike.refl m

theorem alike_carryAll (ws : List Step) : (m.carryAll fold ws).Alike m := by
  induction ws generalizing m with
  | nil => exact Alike.refl m
  | cons w ws ih => exact (ih _).trans (alike_carry fold m w)

end Memory

section walk

variable {fold : Option (Fold (Item t))} {m : Memory t}

theorem writePairs_eq {ws : List Step} (present : ∀ w ∈ ws, w.1 ∈ m ∧ w.2 ∈ m) :
    writePairs fold ws m = .ok () (m.carryAll fold ws) := by
  induction ws generalizing m with
  | nil => rfl
  | cons w ws ih =>
    obtain ⟨source, destination⟩ := w
    obtain ⟨x, hx⟩ := Memory.mem_iff.mp (present _ List.mem_cons_self).1
    have carried : m.carry fold (source, destination) = m.merge fold destination x := by
      simp only [Memory.carry, hx]
    have later : ∀ w ∈ ws, w.1 ∈ m.merge fold destination x ∧ w.2 ∈ m.merge fold destination x := by
      intro w hw
      have alike := Memory.alike_merge fold m destination x
      rw [alike.mem_iff, alike.mem_iff]
      exact present w (List.mem_cons_of_mem _ hw)
    rw [writePairs, bind_of_ok (load_eq hx),
      bind_of_ok (writePlain_eq (present _ List.mem_cons_self).2 fold x), ih later,
      Memory.carryAll_cons, carried]

def runSteps (source target : Nat) (w : Run × Run) : List Step :=
  (w.1.slots.map (Location.mk source)).zip (w.2.slots.map (Location.mk target))

theorem mem_of_within {s : Region} {r : Run} (within : r.Within s.extent) (held : m.Holds s)
    {l : Location} (hl : l ∈ r.slots.map (Location.mk s.bank)) : l ∈ m := by
  obtain ⟨k, hk, rfl⟩ := List.mem_map.mp hl
  rw [Memory.mem_iff_slot]
  exact Nat.lt_of_lt_of_eq (within.slot_lt k hk) (Eq.symm held)

/-- Spans and single steps go through the same cells. -/
theorem writeRuns_eq {s d : Region} {ws : List (Run × Run)}
    (within : ∀ w ∈ ws, w.1.Within s.extent ∧ w.2.Within d.extent)
    (source : m.Holds s) (target : m.Holds d) :
    writeRuns fold s.bank d.bank ws m =
      .ok () (m.carryAll fold (ws.flatMap (runSteps s.bank d.bank))) := by
  induction ws generalizing m with
  | nil => rfl
  | cons w ws ih =>
    obtain ⟨r, r'⟩ := w
    obtain ⟨hr, hr'⟩ := within _ List.mem_cons_self
    have present : ∀ w ∈ runSteps s.bank d.bank (r, r'), w.1 ∈ m ∧ w.2 ∈ m := by
      intro w hw
      exact ⟨mem_of_within hr source (List.of_mem_zip hw).1,
        mem_of_within hr' target (List.of_mem_zip hw).2⟩
    have walked : writePairs fold (runSteps s.bank d.bank (r, r')) m =
        .ok () (m.carryAll fold (runSteps s.bank d.bank (r, r'))) := writePairs_eq present
    have alike := Memory.alike_carryAll fold m (runSteps s.bank d.bank (r, r'))
    have tail := ih (fun w hw => within w (List.mem_cons_of_mem _ hw))
      ((alike.extent s.bank).trans source) ((alike.extent d.bank).trans target)
    rw [List.flatMap_cons, Memory.carryAll_append, ← tail, writeRuns]
    by_cases unit : r.stride = 1 ∧ r'.stride = 1
    · have froms : (liftStep (r.span s.extent) : Action t (List Nat)) m = .ok r.slots m := by
        simp only [liftStep, Run.span_eq hr unit.1]
      have tos : (liftStep (r'.span d.extent) : Action t (List Nat)) m = .ok r'.slots m := by
        simp only [liftStep, Run.span_eq hr' unit.2]
      have from' : extentOf s.bank m = .ok s.extent m := congrArg (EStateM.Result.ok · m) source
      have to' : extentOf d.bank m = .ok d.extent m := congrArg (EStateM.Result.ok · m) target
      rw [if_pos unit, bind_of_ok from', bind_of_ok froms, bind_of_ok to', bind_of_ok tos]
      exact bind_of_ok walked
    · rw [if_neg unit]
      exact bind_of_ok walked

end walk

namespace View

/-- The steps of a copy of `n` items from index `start` on. -/
def steps (source target : View) (start n : Nat) : List Step :=
  (source.cells start n).zip (target.cells start n)

theorem steps_succ (source target : View) (start n : Nat) :
    source.steps target start (n + 1) =
      (source.location start, target.location start) :: source.steps target (start + 1) n := rfl

theorem steps_add (source target : View) (start n k : Nat) :
    source.steps target start (n + k) =
      source.steps target start n ++ source.steps target (start + n) k := by
  rw [steps, cells_add, cells_add, List.zip_append (by simp)]
  rfl

/-- Going row by row is going through all items in order. -/
theorem flatMap_steps_rows (source target : View) (columns rows : Nat) :
    ((List.range rows).flatMap fun row => source.steps target (row * columns) columns) =
      source.steps target 0 (rows * columns) := by
  induction rows with
  | zero => rw [Nat.zero_mul]; rfl
  | succ rows ih =>
    rw [List.range_succ, List.flatMap_append, ih, Nat.succ_mul, steps_add, Nat.zero_add,
      List.flatMap_cons, List.flatMap_nil, List.append_nil]

/-- The runs of one row of a block name the items of the row. -/
theorem slots_row (g : Grid) (rows columns : IndexRange) (row : Nat) :
    Run.slots ⟨rowHead g rows columns row, columns.stride, columns.length⟩ =
      (List.range' (row * columns.length) columns.length).map (block g rows columns).slot := by
  have whole : row * columns.length / columns.length = row :=
    Nat.mul_div_cancel row columns.length_pos
  have first : row * columns.length % columns.length = 0 := Nat.mul_mod_left row columns.length
  have inRow := slots_in_row g rows columns (i := row * columns.length)
    (Nat.le_of_eq (by rw [first, Nat.sub_zero]))
  rwa [whole, first, Nat.zero_mul, Nat.add_zero] at inRow

theorem within_row {g : Grid} {rows columns : IndexRange} (fits : (block g rows columns).Fits)
    {row : Nat} (hr : row < rows.length) :
    Run.Within ⟨rowHead g rows columns row, columns.stride, columns.length⟩ g.storage.extent := by
  refine ⟨columns.length_pos, ?_⟩
  intro k hk
  rw [slots_row] at hk
  obtain ⟨i, hi, rfl⟩ := List.mem_map.mp hk
  rw [List.mem_range'_1] at hi
  apply slot_lt fits rfl
  have below : (row + 1) * columns.length ≤ rows.length * columns.length :=
    Nat.mul_le_mul_right _ hr
  rw [Nat.succ_mul] at below
  exact Nat.lt_of_lt_of_le hi.2 below

theorem within_rowRuns {g : Grid} {rows columns : IndexRange} (fits : (block g rows columns).Fits) :
    ∀ r ∈ rowRuns g rows columns, r.Within g.storage.extent := by
  intro r hr
  obtain ⟨row, hrow, rfl⟩ := List.mem_map.mp hr
  exact within_row fits (List.mem_range.mp hrow)

theorem within_rangeRun {s : Region} {range : IndexRange} (fits : (array s range).Fits) {n : Nat}
    (pos : 0 < n) (le : n ≤ range.length) : (rangeRun range n).Within s.extent :=
  within_runs fits rfl pos ((Nat.zero_add n).symm ▸ le) List.mem_cons_self

theorem rangeRun_eq (s : Region) (range : IndexRange) (n : Nat) :
    (array s range).runs 0 n = [rangeRun range n] := rfl

end View

variable {m : Memory t} {p q : Endpoint t}

/-- The item loop ends well, having read each item just before it writes it. -/
theorem forM_put_get (lp : p.view.Laid m) (lq : q.view.Laid m) {start n : Nat}
    (hp : start + n ≤ p.length) (hq : start + n ≤ q.length) :
    ((List.range' start n).forM fun i => do p.put i (← q.get i) : Action t Unit) m =
      .ok () (m.carryAll p.fold (q.view.steps p.view start n)) := by
  induction n generalizing m start with
  | zero => rfl
  | succ n ih =>
    obtain ⟨x, hx⟩ := Memory.mem_iff.mp (lq.location_mem (i := start) (by
      simp only [Endpoint.length] at hq; omega))
    have got : q.get start m = .ok x m := Endpoint.get_eq (by omega) hx
    have done : p.put start x m = .ok () (m.merge p.fold (p.view.location start) x) :=
      Endpoint.put_eq lp (by omega) x
    have carried : m.carry p.fold (q.view.location start, p.view.location start) =
        m.merge p.fold (p.view.location start) x := by
      simp only [Memory.carry, hx]
    have alike := Memory.alike_merge p.fold m (p.view.location start) x
    have hp' : start + 1 + n ≤ p.length := by omega
    have hq' : start + 1 + n ≤ q.length := by omega
    have tail := ih (lp.alike alike) (lq.alike alike) hp' hq'
    rw [View.steps_succ, Memory.carryAll_cons, carried, ← tail]
    exact (bind_of_ok ((bind_of_ok got).trans done) : _)

theorem absorbItems_eq (lp : p.view.Laid m) (lq : q.view.Laid m) :
    p.absorbItems q m =
      .ok () (m.carryAll p.fold (q.view.steps p.view 0 (min q.length p.length))) := by
  rw [Endpoint.absorbItems, List.range_eq_range']
  exact forM_put_get lp lq (by omega) (by omega)

/-- The walk along two slices. -/
theorem walk_arrays_eq {s d : Region} {range range' : IndexRange}
    (lp : (View.array d range').Laid m) (lq : (View.array s range).Laid m) {n : Nat}
    (hn : n = min range.length range'.length) (fold : Option (Fold (Item t))) :
    writeRuns fold s.bank d.bank [(View.rangeRun range n, View.rangeRun range' n)] m =
      .ok () (m.carryAll fold ((View.array s range).steps (View.array d range') 0 n)) := by
  have pos : 0 < n := by have := range.length_pos; have := range'.length_pos; omega
  have hs : 0 + n ≤ (View.array s range).length := by simp only [View.length]; omega
  have hd : 0 + n ≤ (View.array d range').length := by simp only [View.length]; omega
  have source := View.slots_runs pos hs
  have target := View.slots_runs pos hd
  rw [View.rangeRun_eq, List.flatMap_singleton] at source target
  rw [writeRuns_eq, List.flatMap_singleton, runSteps, source, target, List.map_map, List.map_map]
  · rfl
  · intro w hw
    cases List.mem_singleton.mp hw
    exact ⟨View.within_rangeRun lq.fits pos (by omega), View.within_rangeRun lp.fits pos (by omega)⟩
  · exact lq.held s rfl
  · exact lp.held d rfl

theorem runSteps_row {g g' : Grid} {rows columns rows' columns' : IndexRange}
    (sameColumns : columns.length = columns'.length) (row : Nat) :
    runSteps g.storage.bank g'.storage.bank
        (⟨View.rowHead g rows columns row, columns.stride, columns.length⟩,
          ⟨View.rowHead g' rows' columns' row, columns'.stride, columns'.length⟩) =
      (View.block g rows columns).steps (View.block g' rows' columns') (row * columns.length)
        columns.length := by
  rw [runSteps, View.slots_row, View.slots_row, ← sameColumns, List.map_map, List.map_map]
  rfl

/-- The walk along the rows of two blocks of one shape. -/
theorem writeBlocks_eq {g g' : Grid} {rows columns rows' columns' : IndexRange}
    (lp : (View.block g' rows' columns').Laid m) (lq : (View.block g rows columns).Laid m)
    (sameRows : rows.length = rows'.length) (sameColumns : columns.length = columns'.length)
    (fold : Option (Fold (Item t))) :
    writeBlocks fold g rows columns g' rows' columns' m =
      .ok () (m.carryAll fold ((View.block g rows columns).steps (View.block g' rows' columns') 0
        (rows.length * columns.length))) := by
  have within : ∀ w ∈ (View.rowRuns g rows columns).zip (View.rowRuns g' rows' columns'),
      w.1.Within g.storage.extent ∧ w.2.Within g'.storage.extent := by
    intro w hw
    obtain ⟨left, right⟩ := List.of_mem_zip hw
    exact ⟨View.within_rowRuns lq.fits _ left, View.within_rowRuns lp.fits _ right⟩
  have sideBySide : (View.rowRuns g rows columns).zip (View.rowRuns g' rows' columns') =
      (List.range rows.length).map fun row =>
        (⟨View.rowHead g rows columns row, columns.stride, columns.length⟩,
          ⟨View.rowHead g' rows' columns' row, columns'.stride, columns'.length⟩) := by
    rw [View.rowRuns, View.rowRuns, ← sameRows, List.zip_map']
  rw [writeBlocks, writeRuns_eq within (lq.held _ rfl) (lp.held _ rfl), sideBySide,
    List.flatMap_map, ← View.flatMap_steps_rows]
  simp only [runSteps_row sameColumns]

/-- The bulk walks take the steps of the item loop. -/
theorem bulk?_eq {source target : View} (lt : target.Laid m) (ls : source.Laid m)
    {fold : Option (Fold (Item t))} {walk : Action t Unit}
    (h : bulk? fold source target = some walk) :
    walk m =
      .ok () (m.carryAll fold (source.steps target 0 (min source.length target.length))) := by
  unfold bulk? at h
  split at h
  · cases h
    exact walk_arrays_eq lt ls rfl fold
  · rename_i g rows columns g' rows' columns'
    split at h
    · rename_i shape
      cases h
      have same : rows.length * columns.length = rows'.length * columns'.length := by
        rw [shape.1, shape.2]
      simp only [View.length, ← same, Nat.min_self]
      exact writeBlocks_eq lt ls shape.1 shape.2 fold
    · cases h
  · cases h

/-- A copy between views of different identity takes the steps of the item loop. -/
theorem absorb_eq (lp : p.view.Laid m) (lq : q.view.Laid m) (differ : q.identity ≠ p.identity) :
    p.absorb q m =
      .ok () (m.carryAll p.fold (q.view.steps p.view 0 (min q.length p.length))) := by
  rw [Endpoint.absorb, if_neg differ]
  cases h : bulk? p.fold q.view p.view with
  | some walk => exact bulk?_eq lp lq h
  | none => exact absorbItems_eq lp lq

/-- A copy, plain or folding, between views of different identity ends well and leaves what the
item loop leaves, whatever the memory holds and wherever the views overlap. -/
theorem absorb_agrees_with_item_loop (p q : Endpoint t) (m : Memory t) (lp : p.view.Laid m)
    (lq : q.view.Laid m) (differ : q.identity ≠ p.identity) :
    ∃ final, p.absorb q m = .ok () final ∧ p.absorbItems q m = .ok () final :=
  ⟨_, absorb_eq lp lq differ, absorbItems_eq lp lq⟩

/-- The upper left block of a square is added to the lower right one, which overlaps it. -/
theorem absorb_agrees_with_item_loop_in_square :
    let square : Grid := ⟨⟨0, 9⟩, 3, 3, rfl⟩
    let low : IndexRange := ⟨0, 1, 2, by decide, by decide⟩
    let high : IndexRange := ⟨1, 1, 2, by decide, by decide⟩
    let m : Memory .int8 := ⟨#[#[1, 2, 3, 4, 5, 6, 7, 8, 9]]⟩
    let p : Endpoint .int8 := ⟨.block square high high, some ⟨"sum", (· + ·)⟩⟩
    let q : Endpoint .int8 := ⟨.block square low low, none⟩
    let left : Memory .int8 := ⟨#[#[1, 2, 3, 4, 6, 8, 7, 12, 15]]⟩
    p.view.Laid m ∧ q.view.Laid m ∧ q.identity ≠ p.identity ∧
      p.absorb q m = .ok () left ∧ p.absorbItems q m = .ok () left := by
  intro square low high m p q left
  obtain ⟨final, copied, looped⟩ :=
    absorb_agrees_with_item_loop p q m (by decide) (by decide) (by decide)
  have value : p.absorb q m = .ok () left := by cbv
  obtain rfl : final = left := (EStateM.Result.ok.inj (copied.symm.trans value)).2
  exact ⟨by decide, by decide, by decide, copied, looped⟩

end WireView
