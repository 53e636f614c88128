import WireView.Proofs.Unpacking
import WireView.Proofs.Making

/-!
# Views and the index mapping

A view whose ranges fit lies in its storage item after item in increasing order, each item where
the index mapping says: an item of a slice at the member of the range, an item of a block in the
row and column of the matrix. So there are no more items than cells, and nothing that is computed
on the way to a slot gets past the number of cells.
-/

namespace WireView

namespace IndexRange

variable {r : IndexRange} {extent i : Nat}

/-- The member at an index of a range that fits is the position there. -/
theorem member_eq (fits : r.Fits extent) (hi : i < r.length) :
    r.member i = .ok (r.position i : Int) := by
  have low := fits.1
  have same : (r.position i : Int) = r.lower + (i * r.stride : Nat) := by
    simp only [position]
    omega
  rw [member, member?, if_pos hi, same]

theorem entry_eq {rows columns : IndexRange} {height width : Nat} (fits : rows.Fits height)
    (fits' : columns.Fits width) (hi : i < rows.length * columns.length) :
    entry rows columns i = .ok ((rows.position (i / columns.length) : Int),
      (columns.position (i % columns.length) : Int)) := by
  rw [entry, member_eq fits (View.row_lt hi), member_eq fits' (View.column_lt columns i)]
  rfl

end IndexRange

namespace View

variable {v : View} {s : Region} {i j : Nat}

/-- The numbers computed on the way to the slot of a logical item, which is the last of them. -/
def reckoning : View → Nat → List Nat
  | array _ range, i | shared _ range, i => [i * range.stride, range.position i]
  | block g rows columns, i =>
    let row := i / columns.length
    let column := i % columns.length
    [rows.length * columns.length, row * rows.stride, rows.position row, column * columns.stride,
      columns.position column, rows.position row * g.columns,
      rows.position row * g.columns + columns.position column]
  | empty, _ | scalar _, _ | cell _, _ => []

/-- The items of a slice are the members of its range, and those of a block the entries of its
matrix at the rows and columns of its ranges. -/
def Mapped : View → Prop
  | array s range =>
    ∀ i < range.length, range.member i = .ok ((array s range).slot i : Int)
  | shared s range =>
    ∀ i < range.length, range.member i = .ok ((shared s range).slot i : Int)
  | block g rows columns =>
    (block g rows columns).length = rows.length * columns.length ∧
      ∀ i < rows.length * columns.length, ∃ row column : Nat,
        IndexRange.entry rows columns i = .ok ((row : Int), (column : Int)) ∧
        ∀ (t : ItemKind) (m : Memory t), m.Holds g.storage →
          ∃ x, Endpoint.get ⟨block g rows columns, none⟩ i m = .ok x m ∧
            g.entry row column m = .ok x m
  | empty | scalar _ | cell _ => True

/-- A view lies in a storage: each item has a cell there, a later item a later one, found by a
computation within the number of cells and where the index mapping says. -/
structure Sound (v : View) (s : Region) : Prop where
  located : ∀ i < v.length, v.locate? i = some ⟨s.bank, v.slot i⟩
  inside : ∀ i < v.length, v.slot i < s.extent
  increasing : ∀ i j, i < j → j < v.length → v.slot i < v.slot j
  reckoned : ∀ i < v.length, ∀ k ∈ v.reckoning i, k ≤ s.extent
  mapped : v.Mapped

/-- Slots in increasing order below a bound are no more than the bound. -/
theorem length_le_extent (fits : v.Fits) (hs : v.region? = some s) : v.length ≤ s.extent := by
  have least : ∀ i < v.length, i ≤ v.slot i := by
    intro i hi
    induction i with
    | zero => exact Nat.zero_le _
    | succ i ih =>
      have step : v.slot i < v.slot (i + 1) := slot_strictMono fits (Nat.lt_succ_self i) hi
      have before := ih (by omega)
      omega
  rcases Nat.eq_zero_or_pos v.length with none | some
  · omega
  · have last : v.length - 1 < v.length := by omega
    have inside := slot_lt fits hs last
    have far := least _ last
    omega

/-- Nothing computed on the way to a slot that lies in the storage gets past its end. -/
theorem reckoning_le (fits : v.Fits) (hs : v.region? = some s) (hi : i < v.length) :
    ∀ k ∈ v.reckoning i, k ≤ s.extent := by
  have inside := slot_lt fits hs hi
  have size := length_le_extent fits hs
  intro k hk
  cases v with
  | empty => cases hk
  | scalar b => cases hk
  | cell b => cases hk
  | array s' range =>
    have offset : i * range.stride ≤ range.position i := Nat.le_add_left _ _
    simp only [reckoning, List.mem_cons, List.not_mem_nil, or_false] at hk
    simp only [slot] at inside
    omega
  | shared s' range =>
    have offset : i * range.stride ≤ range.position i := Nat.le_add_left _ _
    simp only [reckoning, List.mem_cons, List.not_mem_nil, or_false] at hk
    simp only [slot] at inside
    omega
  | block g rows columns =>
    obtain rfl : g.storage = s := Option.some.inj hs
    have row := rows.position_lt fits.1 (row_lt hi)
    have column := columns.position_lt fits.2 (column_lt columns i)
    have tall : g.rows ≤ g.storage.extent := by
      rw [← g.filled]
      exact Nat.le_mul_of_pos_right _ (by omega)
    have wide : g.columns ≤ g.storage.extent := by
      rw [← g.filled]
      exact Nat.le_mul_of_pos_left _ (by omega)
    have down : i / columns.length * rows.stride ≤ rows.position (i / columns.length) :=
      Nat.le_add_left _ _
    have across : i % columns.length * columns.stride ≤ columns.position (i % columns.length) :=
      Nat.le_add_left _ _
    simp only [slot] at inside
    simp only [length] at size
    simp only [reckoning, List.mem_cons, List.not_mem_nil, or_false] at hk
    omega

/-- The items of a block are found in its matrix by row and column. -/
theorem get_block {g : Grid} {rows columns : IndexRange} {t : ItemKind} {m : Memory t}
    (fits : (block g rows columns).Fits) (held : m.Holds g.storage)
    (hi : i < rows.length * columns.length) :
    ∃ x, Endpoint.get ⟨block g rows columns, none⟩ i m = .ok x m ∧
      g.entry (rows.position (i / columns.length)) (columns.position (i % columns.length)) m
        = .ok x m := by
  have laid : (block g rows columns).Laid m := laid_of_region fits rfl held
  obtain ⟨x, hx⟩ := Memory.mem_iff.mp (laid.location_mem hi)
  have row := rows.position_lt fits.1 (row_lt hi)
  have column := columns.position_lt fits.2 (column_lt columns i)
  refine ⟨x, Endpoint.get_eq hi hx, ?_⟩
  rw [Grid.entry, if_pos ⟨row, column⟩]
  exact load_eq hx

theorem mapped_of_fits (fits : v.Fits) : v.Mapped := by
  cases v with
  | empty => trivial
  | scalar b => trivial
  | cell b => trivial
  | array s range => exact fun i hi => range.member_eq fits hi
  | shared s range => exact fun i hi => range.member_eq fits hi
  | block g rows columns =>
    refine ⟨rfl, fun i hi => ⟨_, _, IndexRange.entry_eq fits.1 fits.2 hi, ?_⟩⟩
    exact fun _ _ held => get_block fits held hi

theorem sound_of_fits (fits : v.Fits) (hs : v.region? = some s) : v.Sound s where
  located := by
    intro i hi
    obtain ⟨s', hs', -, hl⟩ := region_of_lt hi
    obtain rfl : s = s' := Option.some.inj (hs.symm.trans hs')
    rw [locate?_eq hi, hl]
  inside := fun _ hi => slot_lt fits hs hi
  increasing := fun _ _ hij hj => slot_strictMono fits hij hj
  reckoned := fun _ hi => reckoning_le fits hs hi
  mapped := mapped_of_fits fits

theorem Sound.locate?_injective (sound : v.Sound s) (hi : i < v.length) (hj : j < v.length)
    (same : v.locate? i = v.locate? j) : i = j := by
  rw [sound.located i hi, sound.located j hj] at same
  have increasing : StrictMonoOn v.slot {k | k < v.length} :=
    fun k _ l hl hkl => sound.increasing k l hkl hl
  exact increasing.injOn hi hj (congrArg Location.slot (Option.some.inj same))

/-- There is nothing in the empty view, so it lies in any storage. -/
theorem sound_empty (s : Region) : empty.Sound s where
  located := fun i hi => absurd hi (Nat.not_lt_zero i)
  inside := fun i hi => absurd hi (Nat.not_lt_zero i)
  increasing := fun _ j _ hj => absurd hj (Nat.not_lt_zero j)
  reckoned := fun i hi => absurd hi (Nat.not_lt_zero i)
  mapped := trivial

end View

end WireView
