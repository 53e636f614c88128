import WireView.View.Slice
import WireView.Proofs.Layout

/-!
# Views that are made are served

Every way to make a view checks its ranges first. So a view made over storage that a memory holds
is served by that memory, and by every later one of the same shape.
-/

namespace WireView

namespace IndexRange

variable {r : IndexRange} {extent : Nat}

theorem fits_of_whole? (h : whole? extent = some r) : r.Fits extent := by
  unfold whole? spanning? at h
  split at h
  · cases h
  · split at h
    · cases h
      have one : Int.toNat 1 = 1 := rfl
      simp only [Fits, upper, one, Int.ediv_one, Nat.mul_one]
      omega
    · cases h

theorem fits_of_check {side : Option Side} {axis : Axis} (h : r.check side axis extent = .ok ()) :
    r.Fits extent := by
  by_cases fits : r.Fits extent
  · exact fits
  · rw [check, if_neg fits] at h
    cases h

end IndexRange

theorem ok_of_bind {ε α β : Type} {x : Except ε α} {f : α → Except ε β} {z : β}
    (h : (x >>= f) = .ok z) : ∃ y, x = .ok y ∧ f y = .ok z := by
  cases x with
  | error e => cases h
  | ok y => exact ⟨y, rfl, h⟩

section checks

variable {ε α : Type} {check : α → Except ε Unit} {P : α → Prop} [DecidablePred P] {reason : α → ε}

/-- Checks in a row end at the first that does not pass. -/
theorem forM_checks (decides : ∀ x, check x = if P x then .ok () else .error (reason x))
    (xs : List α) :
    forM xs check = (xs.find? fun x => ¬P x).elim (.ok ()) fun x => .error (reason x) := by
  induction xs with
  | nil => rfl
  | cons x xs ih =>
    rw [List.forM_cons, decides]
    by_cases passes : P x
    · rw [List.find?_cons_of_neg (by simpa using passes), if_pos passes, ← ih]
      rfl
    · rw [List.find?_cons_of_pos (by simpa using passes), if_neg passes]
      rfl

theorem find?_fails_eq_none {xs : List α} : xs.find? (fun x => ¬P x) = none ↔ ∀ x ∈ xs, P x := by
  simp

end checks

theorem forall_of_mapM {ε α β : Type} {f : α → Except ε β} {P : β → Prop} {xs : List α}
    {ys : List β} (h : xs.mapM f = .ok ys) (each : ∀ x y, f x = .ok y → P y) : ∀ y ∈ ys, P y := by
  induction xs generalizing ys with
  | nil =>
    cases h
    intro y hy
    cases hy
  | cons x xs ih =>
    rw [List.mapM_cons] at h
    obtain ⟨y, hy, h⟩ := ok_of_bind h
    obtain ⟨zs, hzs, h⟩ := ok_of_bind h
    cases h
    intro z hz
    rcases List.mem_cons.mp hz with rfl | later
    · exact each x z hy
    · exact ih hzs z later

namespace View

variable {t : ItemKind} {m : Memory t} {s : Region} {g : Grid} {v : View} {vs : List View}
variable {range rows columns : IndexRange} {ranges rowses columnses : List IndexRange}

theorem slice_of_fits (fits : range.Fits s.extent) : slice s range = .ok (array s range) := by
  rw [slice, IndexRange.check, if_pos fits]
  rfl

theorem sharedSlice_of_fits (fits : range.Fits s.extent) :
    sharedSlice s range = .ok (shared s range) := by
  rw [sharedSlice, IndexRange.check, if_pos fits]
  rfl

theorem cutBlock_of_fits (fits : rows.Fits g.rows) (fits' : columns.Fits g.columns) :
    cutBlock g rows columns = .ok (block g rows columns) := by
  rw [cutBlock, IndexRange.check, if_pos fits, IndexRange.check, if_pos fits']
  rfl

theorem laid_empty (m : Memory t) : empty.Laid m where
  fits := trivial
  held := fun _ h => nomatch h

theorem laid_of_region (fits : v.Fits) (hs : v.region? = some s) (held : m.Holds s) :
    v.Laid m where
  fits := fits
  held := by
    intro s' hs'
    obtain rfl : s = s' := Option.some.inj (hs.symm.trans hs')
    exact held

theorem laid_ofArray (held : m.Holds s) : (ofArray s).Laid m := by
  unfold ofArray
  split
  · next range whole => exact laid_of_region (range.fits_of_whole? whole) rfl held
  · exact laid_empty m

theorem laid_slice (held : m.Holds s) (made : slice s range = .ok v) : v.Laid m := by
  obtain ⟨_, fits, made⟩ := ok_of_bind made
  cases made
  exact laid_of_region (IndexRange.fits_of_check fits) rfl held

theorem laid_ofMatrix (held : m.Holds g.storage) : (ofMatrix g).Laid m := by
  unfold ofMatrix
  split
  · next rows columns whole whole' =>
    exact laid_of_region ⟨rows.fits_of_whole? whole, columns.fits_of_whole? whole'⟩ rfl held
  · exact laid_empty m

theorem laid_rowBand (held : m.Holds g.storage) (made : rowBand g rows = .ok v) : v.Laid m := by
  obtain ⟨_, fits, made⟩ := ok_of_bind made
  split at made
  · next columns whole =>
    cases made
    exact laid_of_region ⟨IndexRange.fits_of_check fits, columns.fits_of_whole? whole⟩ rfl held
  · cases made
    exact laid_empty m

theorem laid_columnBand (held : m.Holds g.storage) (made : columnBand g columns = .ok v) :
    v.Laid m := by
  obtain ⟨_, fits, made⟩ := ok_of_bind made
  split at made
  · next rows whole =>
    cases made
    exact laid_of_region ⟨rows.fits_of_whole? whole, IndexRange.fits_of_check fits⟩ rfl held
  · cases made
    exact laid_empty m

theorem laid_cutBlock (held : m.Holds g.storage) (made : cutBlock g rows columns = .ok v) :
    v.Laid m := by
  obtain ⟨_, fits, made⟩ := ok_of_bind made
  obtain ⟨_, fits', made⟩ := ok_of_bind made
  cases made
  exact laid_of_region ⟨IndexRange.fits_of_check fits, IndexRange.fits_of_check fits'⟩ rfl held

theorem laid_cutBlocks (held : m.Holds g.storage) (made : cutBlocks g rowses columnses = .ok vs) :
    ∀ v ∈ vs, v.Laid m := by
  unfold cutBlocks at made
  cases all : rowses.mapM fun r => columnses.mapM fun c => cutBlock g r c with
  | error e =>
    rw [all] at made
    cases made
  | ok blocks =>
    rw [all] at made
    cases made
    have row : ∀ r vs, (columnses.mapM fun c => cutBlock g r c) = .ok vs →
        ∀ v ∈ vs, v.Laid m := by
      intro r vs made
      exact forall_of_mapM made fun _ _ => laid_cutBlock held
    have each : ∀ vs ∈ blocks, ∀ v ∈ vs, v.Laid m := forall_of_mapM all row
    intro v hv
    obtain ⟨vs, hvs, hv⟩ := List.mem_flatten.mp hv
    exact each vs hvs v hv

theorem laid_ofShared (held : m.Holds s) : (ofShared s).Laid m := by
  unfold ofShared
  split
  · next range whole => exact laid_of_region (range.fits_of_whole? whole) rfl held
  · exact laid_empty m

theorem laid_sharedSlice (held : m.Holds s) (made : sharedSlice s range = .ok v) : v.Laid m := by
  obtain ⟨_, fits, made⟩ := ok_of_bind made
  cases made
  exact laid_of_region (IndexRange.fits_of_check fits) rfl held

/-- The ways to come by a view of what a memory holds. -/
inductive Made (m : Memory t) : View → Prop where
  | empty : Made m empty
  | cell {b : Nat} (held : m.Holds ⟨b, 1⟩) : Made m (cell b)
  | scalar {b : Nat} (held : m.Holds ⟨b, 1⟩) : Made m (scalar b)
  | ofArray {s : Region} (held : m.Holds s) : Made m (ofArray s)
  | slice {s : Region} {range : IndexRange} {v : View} (held : m.Holds s)
      (made : slice s range = .ok v) : Made m v
  | slices {s : Region} {ranges : List IndexRange} {vs : List View} {v : View} (held : m.Holds s)
      (made : slices s ranges = .ok vs) (hv : v ∈ vs) : Made m v
  | ofMatrix {g : Grid} (held : m.Holds g.storage) : Made m (ofMatrix g)
  | rowBand {g : Grid} {rows : IndexRange} {v : View} (held : m.Holds g.storage)
      (made : rowBand g rows = .ok v) : Made m v
  | rowBands {g : Grid} {rowses : List IndexRange} {vs : List View} {v : View}
      (held : m.Holds g.storage) (made : rowBands g rowses = .ok vs) (hv : v ∈ vs) : Made m v
  | columnBand {g : Grid} {columns : IndexRange} {v : View} (held : m.Holds g.storage)
      (made : columnBand g columns = .ok v) : Made m v
  | columnBands {g : Grid} {columnses : List IndexRange} {vs : List View} {v : View}
      (held : m.Holds g.storage) (made : columnBands g columnses = .ok vs) (hv : v ∈ vs) :
      Made m v
  | cutBlock {g : Grid} {rows columns : IndexRange} {v : View} (held : m.Holds g.storage)
      (made : cutBlock g rows columns = .ok v) : Made m v
  | cutBlocks {g : Grid} {rowses columnses : List IndexRange} {vs : List View} {v : View}
      (held : m.Holds g.storage) (made : cutBlocks g rowses columnses = .ok vs) (hv : v ∈ vs) :
      Made m v
  | ofShared {s : Region} (held : m.Holds s) : Made m (ofShared s)
  | sharedSlice {s : Region} {range : IndexRange} {v : View} (held : m.Holds s)
      (made : sharedSlice s range = .ok v) : Made m v
  | sharedSlices {s : Region} {ranges : List IndexRange} {vs : List View} {v : View}
      (held : m.Holds s) (made : sharedSlices s ranges = .ok vs) (hv : v ∈ vs) : Made m v

theorem laid_of_made (made : Made m v) : v.Laid m := by
  cases made with
  | empty => exact laid_empty m
  | cell held => exact laid_of_region trivial rfl held
  | scalar held => exact laid_of_region trivial rfl held
  | ofArray held => exact laid_ofArray held
  | slice held made => exact laid_slice held made
  | slices held made hv => exact forall_of_mapM made (fun _ _ => laid_slice held) v hv
  | ofMatrix held => exact laid_ofMatrix held
  | rowBand held made => exact laid_rowBand held made
  | rowBands held made hv => exact forall_of_mapM made (fun _ _ => laid_rowBand held) v hv
  | columnBand held made => exact laid_columnBand held made
  | columnBands held made hv => exact forall_of_mapM made (fun _ _ => laid_columnBand held) v hv
  | cutBlock held made => exact laid_cutBlock held made
  | cutBlocks held made hv => exact laid_cutBlocks held made v hv
  | ofShared held => exact laid_ofShared held
  | sharedSlice held made => exact laid_sharedSlice held made
  | sharedSlices held made hv => exact forall_of_mapM made (fun _ _ => laid_sharedSlice held) v hv

end View

end WireView
