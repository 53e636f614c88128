import WireView.Proofs.Snapshot

/-!
# Copies onto views that trail

A copy may be understood from the items before the call alone when no item is read after it was
overwritten. That holds of views of different storages, and also of a view that lies over the same
cells as the source or some way before them, item for item at one distance: what it overwrites
has been read by then. Slices of one stride and blocks of one shape and one stride lie so.
-/

namespace WireView

variable {t : ItemKind}

namespace IndexRange

variable {r r' : IndexRange}

theorem position_eq (r : IndexRange) (i : Nat) : r.position i = r.position 0 + i * r.stride := by
  have := r.position_add 0 i
  rwa [Nat.zero_add] at this

theorem position_zero_le (h : r'.lower ≤ r.lower) : r'.position 0 ≤ r.position 0 := by
  simp only [position]
  omega

end IndexRange

namespace View

/-- Item for item, the source lies `distance` cells after the target, in one bank. -/
structure Behind (target source : View) (distance : Nat) : Prop where
  bank : target.bank? = source.bank?
  slot : ∀ i, source.slot i = target.slot i + distance

/-- Ways for a view to trail another, none of whose items it overwrites too early. -/
inductive Trails : View → View → Prop where
  /-- Views of different storages. -/
  | apart {target source : View} (other : target.bank? ≠ source.bank?) : Trails target source
  /-- Slices of one array with one stride, the first of which starts no later. -/
  | slices {s : Region} {range' range : IndexRange} (stride : range'.stride = range.stride)
      (first : range'.lower ≤ range.lower) : Trails (array s range') (array s range)
  /-- Slices of one shared array with one stride, the first of which starts no later. -/
  | sharedSlices {s : Region} {range' range : IndexRange} (stride : range'.stride = range.stride)
      (first : range'.lower ≤ range.lower) : Trails (shared s range') (shared s range)
  /-- Blocks of one matrix with one shape and the same strides, the first of which has its first
  cell no later. -/
  | blocks {g : Grid} {rows' columns' rows columns : IndexRange}
      (shape : rows'.length = rows.length ∧ columns'.length = columns.length)
      (strides : rows'.stride = rows.stride ∧ columns'.stride = columns.stride)
      (first : (block g rows' columns').slot 0 ≤ (block g rows columns).slot 0) :
      Trails (block g rows' columns') (block g rows columns)

/-- The slots of a slice are steps of its stride from the first one. -/
theorem behind_of_stride {range' range : IndexRange} (stride : range'.stride = range.stride)
    (first : range'.lower ≤ range.lower) (i : Nat) :
    range.position i = range'.position i + (range.position 0 - range'.position 0) := by
  have start := IndexRange.position_zero_le first
  rw [range.position_eq, range'.position_eq, stride]
  omega

/-- A slot of a block is a number of rows and of columns away from the first one. -/
theorem slot_block_eq (g : Grid) (rows columns : IndexRange) (i : Nat) :
    (block g rows columns).slot i = (block g rows columns).slot 0 +
      (i / columns.length * rows.stride * g.columns + i % columns.length * columns.stride) := by
  simp only [slot, Nat.zero_div, Nat.zero_mod]
  rw [rows.position_eq (i / columns.length), columns.position_eq (i % columns.length), Nat.add_mul]
  omega

theorem behind_of_trails {target source : View} (trails : Trails target source)
    (same : target.bank? = source.bank?) : ∃ distance, Behind target source distance := by
  cases trails with
  | apart other => exact absurd same other
  | slices stride first => exact ⟨_, rfl, behind_of_stride stride first⟩
  | sharedSlices stride first => exact ⟨_, rfl, behind_of_stride stride first⟩
  | @blocks g rows' columns' rows columns shape strides first =>
    refine ⟨(block g rows columns).slot 0 - (block g rows' columns').slot 0, rfl, fun i => ?_⟩
    rw [slot_block_eq g rows columns, slot_block_eq g rows' columns', shape.2, strides.1, strides.2]
    omega

variable {target source : View} {n : Nat}

/-- No earlier cell of the target is read later: it lies before the cell that the target has then,
and that one lies no later than the cell which is read. -/
theorem Behind.readsAhead {distance : Nat} (behind : Behind target source distance)
    (fits : target.Fits) (le : n ≤ target.length) : source.ReadsAhead target n := by
  intro i j hij hj same
  have before : target.slot i < target.slot j := slot_strictMono fits hij (by omega)
  have reads : source.slot j = target.slot i := congrArg Location.slot same
  have after := behind.slot j
  omega

theorem Trails.readsAhead (trails : Trails target source) (fits : target.Fits)
    (ls : n ≤ source.length) (lt : n ≤ target.length) : source.ReadsAhead target n := by
  by_cases same : target.bank? = source.bank?
  · obtain ⟨distance, behind⟩ := behind_of_trails trails same
    exact behind.readsAhead fits lt
  · exact (disjoint_of_bank? same).readsAhead ls lt

/-- Within both views, to be at one location is to be located at one cell. -/
theorem readsAhead_iff (ls : n ≤ source.length) (lt : n ≤ target.length) :
    source.ReadsAhead target n ↔
      ∀ i j, i < j → j < n → target.locate? i ≠ source.locate? j := by
  constructor
  · intro ahead i j hij hj same
    rw [locate?_eq (v := target) (by omega), locate?_eq (v := source) (by omega)] at same
    exact ahead i j hij hj (Option.some.inj same).symm
  · intro apart i j hij hj same
    apply apart i j hij hj
    rw [locate?_eq (v := target) (by omega), locate?_eq (v := source) (by omega), same]

end View

/-- A copy takes a snapshot of its source when none of the cells it reads was overwritten by an
earlier item: the call ends well, every item that both views have becomes the source's item from
before the call, or is folded with it, and all other cells keep theirs. This is so for views of
different storages, for slices of one array with one stride and for blocks of one matrix with one
shape and one stride, when the destination starts no later than the source. -/
theorem absorb_takes_snapshot (p q : Endpoint t) (m : Memory t) (lp : p.view.Laid m)
    (lq : q.view.Laid m) :
    let n := min q.length p.length
    let unspoilt := ∀ i j, i < j → j < n → p.view.locate? i ≠ q.view.locate? j
    (q.identity ≠ p.identity → unspoilt →
      ∃ final, p.absorb q m = .ok () final ∧ Delivered q p n m final) ∧
    (p.view.Trails q.view → unspoilt) := by
  intro n unspoilt
  have hq : n ≤ q.length := Nat.min_le_left _ _
  have hp : n ≤ p.length := Nat.min_le_right _ _
  have iff : q.view.ReadsAhead p.view n ↔ unspoilt := View.readsAhead_iff hq hp
  constructor
  · intro differ clear
    exact ⟨_, Endpoint.absorb_eq_putAll lp lq differ (iff.mpr clear),
      Endpoint.delivered_putAll lp lq hp hq⟩
  · intro trails
    exact iff.mp (trails.readsAhead lp.fits hq hp)

/-- The lower two rows of a square are added to the upper two, in the first two columns. The second
row is read before the third is added to it. -/
theorem absorb_takes_snapshot_of_lower_rows :
    let square : Grid := ⟨⟨0, 9⟩, 3, 3, rfl⟩
    let m : Memory .int8 := ⟨#[#[1, 2, 3, 4, 5, 6, 7, 8, 9]]⟩
    let p : Endpoint .int8 :=
      ⟨.block square ⟨0, 1, 2, by decide, by decide⟩ ⟨0, 1, 2, by decide, by decide⟩,
        some ⟨"sum", (· + ·)⟩⟩
    let q : Endpoint .int8 :=
      ⟨.block square ⟨1, 1, 2, by decide, by decide⟩ ⟨0, 1, 2, by decide, by decide⟩, none⟩
    p.view.Laid m ∧ q.view.Laid m ∧ q.identity ≠ p.identity ∧ p.view.Trails q.view ∧
      ∃ final, p.absorb q m = .ok () final ∧ p.get 1 final = .ok 7 final ∧
        p.get 2 final = .ok 11 final ∧ final.cell? ⟨0, 6⟩ = some 7 := by
  intro square m p q
  have lp : p.view.Laid m := by decide
  have lq : q.view.Laid m := by decide
  have trails : p.view.Trails q.view := .blocks ⟨rfl, rfl⟩ ⟨rfl, rfl⟩ (by decide)
  have snapshot := absorb_takes_snapshot p q m lp lq
  obtain ⟨final, copied, delivered⟩ := snapshot.1 (by decide) (snapshot.2 trails)
  obtain ⟨x, y, hx, hy, first⟩ := delivered.item 1 (by decide)
  obtain ⟨z, w, hz, hw, second⟩ := delivered.item 2 (by decide)
  injection hx with hx
  injection hy with hy
  injection hz with hz
  injection hw with hw
  subst hx hy hz hw
  exact ⟨lp, lq, by decide, trails, final, copied, first, second,
    delivered.others ⟨0, 6⟩ (by decide)⟩

end WireView
