import WireView.View.Slice
import WireView.Proofs.Mapping

/-!
# Requests for views

A request for a view is granted just when every member of every range that is asked for is a
position of its axis; otherwise the first range that has a member elsewhere is the reason of the
refusal. What is granted is laid soundly over its storage, as the index mapping says.
-/

namespace WireView

namespace IndexRange

variable {r : IndexRange} {extent : Nat}

theorem lower_mem (r : IndexRange) : r.lower ∈ r := by
  refine ⟨Int.le_refl _, ?_, ?_⟩
  · simp only [upper]
    omega
  · rw [Int.sub_self, Int.zero_emod]

theorem upper_mem (r : IndexRange) : r.upper ∈ r := by
  refine ⟨?_, Int.le_refl _, ?_⟩
  · simp only [upper]
    omega
  · have distance : r.upper - r.lower = ((r.length - 1 : Nat) : Int) * (r.stride : Int) := by
      simp only [upper, Int.natCast_mul]
      omega
    rw [distance, Int.mul_emod_left]

/-- A range fits an axis just when each of its members is a position there. -/
theorem fits_iff : r.Fits extent ↔ ∀ k ∈ r, 0 ≤ k ∧ k < extent := by
  constructor
  · rintro ⟨low, high⟩ k ⟨above, below, -⟩
    omega
  · intro members
    exact ⟨(members r.lower r.lower_mem).1, (members r.upper r.upper_mem).2⟩

def full (extent : Nat) (pos : 0 < extent) : IndexRange := ⟨0, 1, extent, Nat.one_pos, pos⟩

theorem full_fits (pos : 0 < extent) : (full extent pos).Fits extent := by
  refine ⟨Int.le_refl _, ?_⟩
  simp only [full, upper]
  omega

theorem whole?_eq (small : extent < 2 ^ 63) :
    whole? extent = if pos : 0 < extent then some (full extent pos) else none := by
  by_cases pos : 0 < extent
  · have spans : (0 : Int) < 1 ∧ 0 ≤ (extent : Int) - 1 ∧ (extent : Int) - 1 - 0 ≤ maxSpan := by
      simp only [maxSpan]
      omega
    have count : ((extent : Int) - 1 - 0).toNat + 1 = extent := by omega
    rw [whole?, if_neg (by omega), spanning?, dif_pos spans, dif_pos pos]
    simp only [full, Int.ediv_one, count, Int.toNat_one]
  · rw [whole?, if_pos (by omega), dif_neg pos]

end IndexRange

/-- The view made with all positions of an axis; an axis that has none leaves nothing to view. -/
def View.overAxis (extent : Nat) (lay : IndexRange → View) : View :=
  if pos : 0 < extent then lay (.full extent pos) else empty

/-- The view made with the range over a whole axis, where the axis has one. -/
def View.alongAxis (extent : Nat) (lay : IndexRange → View) : View :=
  match IndexRange.whole? extent with
  | some range => lay range
  | none => empty

theorem View.alongAxis_eq {extent : Nat} (small : extent < 2 ^ 63) (lay : IndexRange → View) :
    alongAxis extent lay = overAxis extent lay := by
  rw [overAxis, alongAxis, IndexRange.whole?_eq small]
  by_cases pos : 0 < extent
  · simp only [dif_pos pos]
  · simp only [dif_neg pos]

theorem View.sound_overAxis {s : Region} {extent : Nat} {lay : IndexRange → View}
    (sound : ∀ range, range.Fits extent → (lay range).Sound s) : (overAxis extent lay).Sound s := by
  by_cases pos : 0 < extent
  · rw [overAxis, dif_pos pos]
    exact sound _ (IndexRange.full_fits pos)
  · rw [overAxis, dif_neg pos]
    exact sound_empty s

/-- The ways to ask for views of an array, a shared array or a matrix. Any shape that uses up its
storage is a matrix, also one of no rows or of no columns. -/
inductive Request where
  | array (storage : Region)
  | slice (storage : Region) (range : IndexRange)
  | shared (storage : Region)
  | sharedSlice (storage : Region) (range : IndexRange)
  | matrix (grid : Grid)
  | rowBand (grid : Grid) (rows : IndexRange)
  | columnBand (grid : Grid) (columns : IndexRange)
  | cutBlock (grid : Grid) (rows columns : IndexRange)

structure Demand where
  axis : Axis
  range : IndexRange
  extent : Nat

def Demand.Met (d : Demand) : Prop := ∀ k ∈ d.range, 0 ≤ k ∧ k < d.extent

theorem Demand.met_iff (d : Demand) : d.Met ↔ d.range.Fits d.extent := IndexRange.fits_iff.symm

instance (d : Demand) : Decidable d.Met := decidable_of_iff _ d.met_iff.symm

def Demand.refusal (d : Demand) : Refusal := .misfit none d.axis d.range d.extent

def Demand.check (d : Demand) : Except Refusal Unit := d.range.check none d.axis d.extent

/-- What a check decides, whichever side the range is asked for on. -/
theorem Demand.check_range (d : Demand) (side : Option Side) :
    d.range.check side d.axis d.extent =
      if d.Met then .ok () else .error (.misfit side d.axis d.range d.extent) := by
  rw [IndexRange.check, if_congr d.met_iff.symm rfl rfl]

theorem Demand.check_eq (d : Demand) :
    d.check = if d.Met then .ok () else .error d.refusal := d.check_range none

/-- The checks end at the first demand that is not met. -/
theorem Demand.forM_check (ds : List Demand) :
    forM ds check = (ds.find? fun d => ¬d.Met).elim (.ok ()) fun d => .error d.refusal :=
  forM_checks check_eq ds

namespace Request

def make : Request → Except Refusal View
  | array s => .ok (View.ofArray s)
  | slice s range => View.slice s range
  | shared s => .ok (View.ofShared s)
  | sharedSlice s range => View.sharedSlice s range
  | matrix g => .ok (View.ofMatrix g)
  | rowBand g rows => View.rowBand g rows
  | columnBand g columns => View.columnBand g columns
  | cutBlock g rows columns => View.cutBlock g rows columns

def storage : Request → Region
  | array s | slice s _ | shared s | sharedSlice s _ => s
  | matrix g | rowBand g _ | columnBand g _ | cutBlock g _ _ => g.storage

/-- The ranges asked for, in the order in which they are checked. -/
def demands : Request → List Demand
  | array _ | shared _ | matrix _ => []
  | slice s range => [⟨.array, range, s.extent⟩]
  | sharedSlice s range => [⟨.sharedArray, range, s.extent⟩]
  | rowBand g rows => [⟨.matrixRow, rows, g.rows⟩]
  | columnBand g columns => [⟨.matrixColumn, columns, g.columns⟩]
  | cutBlock g rows columns => [⟨.matrixRow, rows, g.rows⟩, ⟨.matrixColumn, columns, g.columns⟩]

/-- The view that is asked for. An axis with no range given is taken whole. -/
def view : Request → View
  | array s => .overAxis s.extent fun range => .array s range
  | slice s range => .array s range
  | shared s => .overAxis s.extent fun range => .shared s range
  | sharedSlice s range => .shared s range
  | matrix g =>
    .overAxis g.rows fun rows => .overAxis g.columns fun columns => .block g rows columns
  | rowBand g rows => .overAxis g.columns fun columns => .block g rows columns
  | columnBand g columns => .overAxis g.rows fun rows => .block g rows columns
  | cutBlock g rows columns => .block g rows columns

def IsSmall : Request → Prop
  | array s | slice s _ | shared s | sharedSlice s _ => s.extent < 2 ^ 63
  | matrix g | rowBand g _ | columnBand g _ | cutBlock g _ _ => g.rows < 2 ^ 63 ∧ g.columns < 2 ^ 63

variable {q : Request} {d : Demand}

/-- The view that is made once the ranges are found to fit. -/
def granted : Request → View
  | array s => View.ofArray s
  | slice s range => .array s range
  | shared s => View.ofShared s
  | sharedSlice s range => .shared s range
  | matrix g => View.ofMatrix g
  | rowBand g rows => .alongAxis g.columns fun columns => .block g rows columns
  | columnBand g columns => .alongAxis g.rows fun rows => .block g rows columns
  | cutBlock g rows columns => .block g rows columns

/-- Every way to make a view first checks what is asked for. -/
theorem make_eq_granted (q : Request) :
    q.make = forM q.demands Demand.check >>= fun _ => pure q.granted := by
  cases q with
  | array s => rfl
  | shared s => rfl
  | matrix g => rfl
  | slice s range =>
    rw [make, View.slice, demands, List.forM_cons, Demand.check]
    cases range.check none .array s.extent <;> rfl
  | sharedSlice s range =>
    rw [make, View.sharedSlice, demands, List.forM_cons, Demand.check]
    cases range.check none .sharedArray s.extent <;> rfl
  | rowBand g rows =>
    rw [make, granted, View.rowBand, View.alongAxis, demands, List.forM_cons, Demand.check]
    cases rows.check none .matrixRow g.rows <;> cases IndexRange.whole? g.columns <;> rfl
  | columnBand g columns =>
    rw [make, granted, View.columnBand, View.alongAxis, demands, List.forM_cons, Demand.check]
    cases columns.check none .matrixColumn g.columns <;> cases IndexRange.whole? g.rows <;> rfl
  | cutBlock g rows columns =>
    rw [make, View.cutBlock, demands, List.forM_cons, List.forM_cons, Demand.check, Demand.check]
    cases rows.check none .matrixRow g.rows <;>
      cases columns.check none .matrixColumn g.columns <;> rfl

theorem granted_eq_view (small : q.IsSmall) : q.granted = q.view := by
  cases q with
  | array s => exact View.alongAxis_eq small _
  | shared s => exact View.alongAxis_eq small _
  | slice s range => rfl
  | sharedSlice s range => rfl
  | matrix g =>
    rw [view, granted, View.ofMatrix, ← View.alongAxis_eq small.1, View.alongAxis]
    simp only [← View.alongAxis_eq small.2, View.alongAxis]
    cases IndexRange.whole? g.rows <;> cases IndexRange.whole? g.columns <;> rfl
  | rowBand g rows => exact View.alongAxis_eq small.2 _
  | columnBand g columns => exact View.alongAxis_eq small.1 _
  | cutBlock g rows columns => rfl

theorem make_of_met (small : q.IsSmall) (met : ∀ d ∈ q.demands, d.Met) : q.make = .ok q.view := by
  rw [make_eq_granted, Demand.forM_check, find?_fails_eq_none.mpr met, granted_eq_view small]
  rfl

theorem make_of_unmet (first : q.demands.find? (fun d => ¬d.Met) = some d) :
    q.make = .error d.refusal := by
  rw [make_eq_granted, Demand.forM_check, first]
  rfl

theorem sound_view (met : ∀ d ∈ q.demands, d.Met) : q.view.Sound q.storage := by
  have fits : ∀ d ∈ q.demands, d.range.Fits d.extent := fun d hd => d.met_iff.mp (met d hd)
  cases q with
  | array s =>
    rw [view]
    exact View.sound_overAxis fun _ h => View.sound_of_fits h rfl
  | shared s =>
    rw [view]
    exact View.sound_overAxis fun _ h => View.sound_of_fits h rfl
  | slice s range => exact View.sound_of_fits (fits _ List.mem_cons_self) rfl
  | sharedSlice s range => exact View.sound_of_fits (fits _ List.mem_cons_self) rfl
  | matrix g =>
    rw [view]
    refine View.sound_overAxis fun rows hr => View.sound_overAxis fun columns hc => ?_
    exact View.sound_of_fits ⟨hr, hc⟩ rfl
  | rowBand g rows =>
    rw [view]
    refine View.sound_overAxis fun columns hc => ?_
    exact View.sound_of_fits ⟨fits _ List.mem_cons_self, hc⟩ rfl
  | columnBand g columns =>
    rw [view]
    refine View.sound_overAxis fun rows hr => ?_
    exact View.sound_of_fits ⟨hr, fits _ List.mem_cons_self⟩ rfl
  | cutBlock g rows columns =>
    have hr := fits _ List.mem_cons_self
    have hc := fits _ (List.mem_cons_of_mem _ List.mem_cons_self)
    exact View.sound_of_fits ⟨hr, hc⟩ rfl

/-- A request is granted just when each member of each range that is asked for is a position of its
axis, and refused otherwise on account of the first range where one is not. What is granted is the
view that was asked for, laid soundly over the storage, with a cell for each item. -/
theorem make_grants_sound_views (q : Request) (small : q.IsSmall) :
    ((∃ v, q.make = .ok v) ↔ ∀ d ∈ q.demands, d.Met) ∧
    ((¬∀ d ∈ q.demands, d.Met) →
      ∃ d, q.demands.find? (fun d => ¬d.Met) = some d ∧ q.make = .error d.refusal) ∧
    ∀ v, q.make = .ok v →
      v = q.view ∧ v.Sound q.storage ∧
      ∀ i < v.length, ∀ j < v.length, v.locate? i = v.locate? j → i = j := by
  have refused : (¬∀ d ∈ q.demands, d.Met) →
      ∃ d, q.demands.find? (fun d => ¬d.Met) = some d ∧ q.make = .error d.refusal := by
    intro unmet
    cases first : q.demands.find? (fun d => ¬d.Met) with
    | none =>
      refine absurd (fun d hd => ?_) unmet
      simpa using List.find?_eq_none.mp first d hd
    | some d => exact ⟨d, rfl, make_of_unmet first⟩
  have granted : ∀ v, q.make = .ok v → ∀ d ∈ q.demands, d.Met := by
    intro v made
    by_contra unmet
    obtain ⟨d, -, error⟩ := refused unmet
    rw [error] at made
    cases made
  refine ⟨⟨?_, ?_⟩, refused, ?_⟩
  · rintro ⟨v, made⟩
    exact granted v made
  · intro met
    exact ⟨q.view, make_of_met small met⟩
  · intro v made
    have met := granted v made
    obtain rfl : q.view = v := Except.ok.inj ((make_of_met small met).symm.trans made)
    have sound := sound_view met
    exact ⟨rfl, sound, fun i hi j hj same => sound.locate?_injective hi hj same⟩

/-- Every second column of a matrix of three rows and four columns. -/
theorem make_grants_sound_views_of_columns :
    let q : Request := .columnBand ⟨⟨0, 12⟩, 3, 4, rfl⟩ ⟨0, 2, 2, by decide, by decide⟩
    q.IsSmall ∧ ∃ v, q.make = .ok v ∧ v.Sound ⟨0, 12⟩ ∧
      (List.range v.length).map v.slot = [0, 2, 4, 6, 8, 10] := by
  intro q
  have small : q.IsSmall := by
    constructor <;> decide
  obtain ⟨granted, -, made⟩ := make_grants_sound_views q small
  obtain ⟨v, hv⟩ := granted.mpr (by decide)
  obtain ⟨rfl, sound, -⟩ := made v hv
  exact ⟨small, q.view, hv, sound, by decide⟩

end Request

end WireView
