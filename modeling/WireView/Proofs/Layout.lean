import Mathlib.Data.List.Nodup
import Mathlib.Order.Monotone.Basic
import WireView.View
import WireView.Proofs.Contents

/-!
# How views lie in memory

A view fits when its ranges lie within its storage, and a memory serves it when the storage is one
of its banks. Such a view has a cell of its own for every logical item: a later item lies at a later
slot, in a block because it is in a later row or further on in the same row.
-/

namespace WireView

namespace IndexRange

variable {r : IndexRange} {extent i j : Nat}

theorem position_add (r : IndexRange) (i k : Nat) :
    r.position (i + k) = r.position i + k * r.stride := by
  simp only [position, Nat.add_mul]
  omega

theorem position_lt (fits : r.Fits extent) (hi : i < r.length) : r.position i < extent := by
  obtain ⟨low, high⟩ := fits
  have last : i * r.stride ≤ (r.length - 1) * r.stride := Nat.mul_le_mul_right _ (by omega)
  simp only [upper] at high
  simp only [position]
  omega

theorem position_strictMono (h : i < j) : r.position i < r.position j := by
  have step : i * r.stride < j * r.stride := Nat.mul_lt_mul_of_pos_right h r.stride_pos
  simp only [position]
  omega

end IndexRange

namespace View

def region? : View → Option Region
  | empty => none
  | array s _ | shared s _ => some s
  | block g _ _ => some g.storage
  | scalar b | cell b => some ⟨b, 1⟩

def Fits : View → Prop
  | array s range | shared s range => range.Fits s.extent
  | block g rows columns => rows.Fits g.rows ∧ columns.Fits g.columns
  | empty | scalar _ | cell _ => True

instance (v : View) : Decidable v.Fits :=
  match v with
  | array s range | shared s range => inferInstanceAs (Decidable (range.Fits s.extent))
  | block g rows columns =>
    inferInstanceAs (Decidable (rows.Fits g.rows ∧ columns.Fits g.columns))
  | empty | scalar _ | cell _ => inferInstanceAs (Decidable True)

/-- A memory serves a view that fits its storage, when the storage is a bank of the memory. -/
structure Laid {t : ItemKind} (v : View) (m : Memory t) : Prop where
  fits : v.Fits
  held : ∀ s, v.region? = some s → m.Holds s

instance {t : ItemKind} (v : View) (m : Memory t) : Decidable (v.Laid m) :=
  decidable_of_iff (v.Fits ∧ ∀ s ∈ v.region?, m.extent s.bank = s.extent)
    ⟨fun h => ⟨h.1, h.2⟩, fun h => ⟨h.fits, h.held⟩⟩

def location (v : View) (i : Nat) : Location := ⟨v.bank?.getD 0, v.slot i⟩

def cells (v : View) (start n : Nat) : List Location := (List.range' start n).map v.location

variable {t : ItemKind} {v : View} {m m' : Memory t} {i j start n : Nat}

theorem Laid.alike (h : v.Laid m) (alike : m'.Alike m) : v.Laid m' :=
  ⟨h.fits, fun s hs => (alike.extent s.bank).trans (h.held s hs)⟩

theorem region_of_lt (hi : i < v.length) :
    ∃ s, v.region? = some s ∧ v.bank? = some s.bank ∧ ∀ k, v.location k = ⟨s.bank, v.slot k⟩ := by
  cases v with
  | empty => exact absurd hi (Nat.not_lt_zero i)
  | array s range => exact ⟨s, rfl, rfl, fun _ => rfl⟩
  | block g rows columns => exact ⟨g.storage, rfl, rfl, fun _ => rfl⟩
  | scalar b => exact ⟨⟨b, 1⟩, rfl, rfl, fun _ => rfl⟩
  | cell b => exact ⟨⟨b, 1⟩, rfl, rfl, fun _ => rfl⟩
  | shared s range => exact ⟨s, rfl, rfl, fun _ => rfl⟩

theorem locate?_eq (hi : i < v.length) : v.locate? i = some (v.location i) := by
  obtain ⟨s, -, hb, hl⟩ := region_of_lt hi
  rw [hl, locate?, if_pos hi, hb]
  rfl

theorem row_lt {rows columns : IndexRange} (hi : i < rows.length * columns.length) :
    i / columns.length < rows.length :=
  (Nat.div_lt_iff_lt_mul columns.length_pos).mpr hi

theorem column_lt (columns : IndexRange) (i : Nat) : i % columns.length < columns.length :=
  Nat.mod_lt i columns.length_pos

theorem slot_lt {s : Region} (fits : v.Fits) (hs : v.region? = some s) (hi : i < v.length) :
    v.slot i < s.extent := by
  cases v with
  | empty => cases hs
  | array s' range => cases hs; exact range.position_lt fits hi
  | shared s' range => cases hs; exact range.position_lt fits hi
  | scalar b => cases hs; exact Nat.zero_lt_one
  | cell b => cases hs; exact Nat.zero_lt_one
  | block g rows columns =>
    cases hs
    have hr := rows.position_lt fits.1 (row_lt hi)
    have hc := columns.position_lt fits.2 (column_lt columns i)
    have next : (rows.position (i / columns.length) + 1) * g.columns ≤ g.rows * g.columns :=
      Nat.mul_le_mul_right _ hr
    rw [Nat.add_mul, g.filled] at next
    simp only [slot]
    omega

/-- Counting row by row, a later item lies in a later row or further on in the same row. -/
theorem slot_strictMono (fits : v.Fits) (hij : i < j) (hj : j < v.length) :
    v.slot i < v.slot j := by
  cases v with
  | empty => exact absurd hj (Nat.not_lt_zero j)
  | array s range => exact range.position_strictMono hij
  | shared s range => exact range.position_strictMono hij
  | scalar b => simp only [length] at hj; omega
  | cell b => simp only [length] at hj; omega
  | block g rows columns =>
    have column := columns.position_lt fits.2 (column_lt columns i)
    simp only [slot]
    rcases Nat.lt_or_ge (i / columns.length) (j / columns.length) with later | same
    · have below := rows.position_strictMono later
      have next : (rows.position (i / columns.length) + 1) * g.columns ≤
          rows.position (j / columns.length) * g.columns := Nat.mul_le_mul_right _ below
      rw [Nat.succ_mul] at next
      omega
    · have row : i / columns.length = j / columns.length :=
        Nat.le_antisymm (Nat.div_le_div_right (Nat.le_of_lt hij)) same
      have further : i % columns.length < j % columns.length := by
        have hi := Nat.div_add_mod i columns.length
        have hj := Nat.div_add_mod j columns.length
        rw [row] at hi
        omega
      rw [row]
      exact Nat.add_lt_add_left (columns.position_strictMono further) _

theorem slot_injective (fits : v.Fits) (hi : i < v.length) (hj : j < v.length)
    (same : v.slot i = v.slot j) : i = j := by
  have increasing : StrictMonoOn v.slot {k | k < v.length} :=
    fun _ _ _ hl hkl => slot_strictMono fits hkl hl
  exact increasing.injOn hi hj same

theorem location_injective (fits : v.Fits) (hi : i < v.length) (hj : j < v.length)
    (same : v.location i = v.location j) : i = j :=
  slot_injective fits hi hj (congrArg Location.slot same)

theorem Laid.location_mem (h : v.Laid m) (hi : i < v.length) : v.location i ∈ m := by
  obtain ⟨s, hs, -, hl⟩ := region_of_lt hi
  have held : m.extent s.bank = s.extent := h.held s hs
  rw [Memory.mem_iff_slot, hl]
  simp only [held]
  exact slot_lt h.fits hs hi

theorem Laid.cells_mem (h : v.Laid m) (hn : start + n ≤ v.length) :
    ∀ l ∈ v.cells start n, l ∈ m := by
  intro l hl
  obtain ⟨i, hi, rfl⟩ := List.mem_map.mp hl
  rw [List.mem_range'_1] at hi
  exact h.location_mem (by omega)

@[simp] theorem length_cells (v : View) (start n : Nat) : (v.cells start n).length = n := by
  simp [cells]

theorem cells_add (v : View) (start n k : Nat) :
    v.cells start (n + k) = v.cells start n ++ v.cells (start + n) k := by
  simp only [cells, ← List.map_append, List.range'_append_1]

theorem nodup_cells (fits : v.Fits) (hn : start + n ≤ v.length) : (v.cells start n).Nodup := by
  refine List.Nodup.map_on ?_ List.nodup_range'
  intro i hi j hj same
  rw [List.mem_range'_1] at hi hj
  exact location_injective fits (by omega) (by omega) same

end View

end WireView
