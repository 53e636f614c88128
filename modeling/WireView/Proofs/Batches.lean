import WireView.Proofs.Requests

/-!
# Requests for several views

A request for several views is a list of single requests, made one after another until one is
refused. So every range is looked at that some single request mentions. For slices and bands these
are all ranges that were given. Blocks come in pairs of ranges, and where one side gives none there
is no pair: no block is made, and the ranges of the other side are never looked at.
-/

namespace WireView

/-- A nested traversal is one traversal of all that it comes to. -/
theorem mapM_flatMap {μ : Type → Type} [Monad μ] [LawfulMonad μ] {α β γ : Type}
    (f : α → List β) (g : β → μ γ) (xs : List α) :
    (xs.flatMap f).mapM g = List.flatten <$> xs.mapM fun x => (f x).mapM g := by
  induction xs with
  | nil => simp
  | cons x xs ih => simp [ih]

/-- With equally many pairs for each row, a pair is found by its row and its place in the row. -/
theorem getElem?_pairs {α β γ : Type} (f : α → β → γ) {rows : List α} {columns : List β}
    {i j : Nat} {r : α} {c : β} (hr : rows[i]? = some r) (hc : columns[j]? = some c) :
    (rows.flatMap fun r => columns.map (f r))[i * columns.length + j]? = some (f r c) := by
  obtain ⟨hj, -⟩ := List.getElem?_eq_some_iff.mp hc
  induction rows generalizing i with
  | nil => cases hr
  | cons r' rows ih =>
    rw [List.flatMap_cons]
    cases i with
    | zero =>
      obtain rfl : r' = r := Option.some.inj hr
      rw [Nat.zero_mul, Nat.zero_add, List.getElem?_append_left (by rwa [List.length_map]),
        List.getElem?_map, hc]
      rfl
    | succ i =>
      have later : (i + 1) * columns.length + j - columns.length = i * columns.length + j := by
        rw [Nat.succ_mul]
        omega
      have past : (columns.map (f r')).length ≤ (i + 1) * columns.length + j := by
        rw [List.length_map, Nat.succ_mul]
        omega
      rw [List.getElem?_append_right past, List.length_map, later]
      exact ih hr

theorem length_pairs {α β γ : Type} (f : α → β → γ) (rows : List α) (columns : List β) :
    (rows.flatMap fun r => columns.map (f r)).length = rows.length * columns.length := by
  induction rows with
  | nil => simp
  | cons r rows ih => rw [List.flatMap_cons, List.length_append, ih, List.length_map,
      List.length_cons, Nat.succ_mul, Nat.add_comm]

/-- Requests made one after another check all that they ask for in order, and are granted one view
each. -/
theorem Request.mapM_make (qs : List Request) :
    qs.mapM make = forM (qs.flatMap demands) Demand.check >>= fun _ => pure (qs.map granted) := by
  induction qs with
  | nil => rfl
  | cons q qs ih =>
    rw [List.mapM_cons, make_eq_granted, ih, List.flatMap_cons, List.forM_append]
    simp only [bind_assoc, pure_bind, List.map_cons]

/-- The ways to ask for several views at once. -/
inductive Batch where
  | slices (storage : Region) (ranges : List IndexRange)
  | sharedSlices (storage : Region) (ranges : List IndexRange)
  | rowBands (grid : Grid) (rows : List IndexRange)
  | columnBands (grid : Grid) (columns : List IndexRange)
  | cutBlocks (grid : Grid) (rows columns : List IndexRange)

namespace Batch

def make : Batch → Except Refusal (List View)
  | slices s ranges => View.slices s ranges
  | sharedSlices s ranges => View.sharedSlices s ranges
  | rowBands g rows => View.rowBands g rows
  | columnBands g columns => View.columnBands g columns
  | cutBlocks g rows columns => View.cutBlocks g rows columns

def demands : Batch → List Demand
  | slices s ranges => ranges.map fun r => ⟨.array, r, s.extent⟩
  | sharedSlices s ranges => ranges.map fun r => ⟨.sharedArray, r, s.extent⟩
  | rowBands g rows => rows.map fun r => ⟨.matrixRow, r, g.rows⟩
  | columnBands g columns => columns.map fun c => ⟨.matrixColumn, c, g.columns⟩
  | cutBlocks g rows columns =>
    (rows.map fun r => ⟨.matrixRow, r, g.rows⟩) ++
      columns.map fun c => ⟨.matrixColumn, c, g.columns⟩

/-- The single requests, one for each view. -/
def requests : Batch → List Request
  | slices s ranges => ranges.map (.slice s)
  | sharedSlices s ranges => ranges.map (.sharedSlice s)
  | rowBands g rows => rows.map (.rowBand g)
  | columnBands g columns => columns.map (.columnBand g)
  | cutBlocks g rows columns => rows.flatMap fun r => columns.map (.cutBlock g r)

/-- Blocks are asked for with no ranges on one side. -/
def IsBare : Batch → Prop
  | cutBlocks _ rows columns => rows = [] ∨ columns = []
  | slices _ _ | sharedSlices _ _ | rowBands _ _ | columnBands _ _ => False

variable {b : Batch} {d : Demand}

theorem make_eq_mapM (b : Batch) : b.make = b.requests.mapM Request.make := by
  cases b with
  | slices s ranges => rw [requests, List.mapM_map]; rfl
  | sharedSlices s ranges => rw [requests, List.mapM_map]; rfl
  | rowBands g rows => rw [requests, List.mapM_map]; rfl
  | columnBands g columns => rw [requests, List.mapM_map]; rfl
  | cutBlocks g rows columns =>
    rw [requests, mapM_flatMap]
    simp only [List.mapM_map]
    rfl

theorem requests_of_bare (bare : b.IsBare) : b.requests = [] := by
  cases b with
  | slices s ranges => cases bare
  | sharedSlices s ranges => cases bare
  | rowBands g rows => cases bare
  | columnBands g columns => cases bare
  | cutBlocks g rows columns =>
    rcases bare with rfl | rfl
    · rfl
    · simp [requests]

/-- But for blocks with no ranges on one side, what is checked is what was given. -/
theorem mem_checked (full : ¬b.IsBare) :
    d ∈ b.requests.flatMap Request.demands ↔ d ∈ b.demands := by
  cases b with
  | slices s ranges => simp [requests, demands, Request.demands, List.flatMap_map, eq_comm]
  | sharedSlices s ranges => simp [requests, demands, Request.demands, List.flatMap_map, eq_comm]
  | rowBands g rows => simp [requests, demands, Request.demands, List.flatMap_map, eq_comm]
  | columnBands g columns => simp [requests, demands, Request.demands, List.flatMap_map, eq_comm]
  | cutBlocks g rows columns =>
    rw [IsBare, not_or] at full
    obtain ⟨r, hr⟩ := List.exists_mem_of_ne_nil rows full.1
    obtain ⟨c, hc⟩ := List.exists_mem_of_ne_nil columns full.2
    simp only [demands, List.mem_append, List.mem_map]
    constructor
    · intro checked
      obtain ⟨q, hq, hd⟩ := List.mem_flatMap.mp checked
      obtain ⟨r', hr', hq⟩ := List.mem_flatMap.mp hq
      obtain ⟨c', hc', rfl⟩ := List.mem_map.mp hq
      rcases List.mem_pair.mp hd with rfl | rfl
      · exact Or.inl ⟨r', hr', rfl⟩
      · exact Or.inr ⟨c', hc', rfl⟩
    · have pair : ∀ r' ∈ rows, ∀ c' ∈ columns, ∀ d ∈ (Request.cutBlock g r' c').demands,
          d ∈ (cutBlocks g rows columns).requests.flatMap Request.demands := by
        intro r' hr' c' hc' d hd
        have listed : Request.cutBlock g r' c' ∈ (cutBlocks g rows columns).requests :=
          List.mem_flatMap.mpr ⟨r', hr', List.mem_map.mpr ⟨c', hc', rfl⟩⟩
        exact List.mem_flatMap.mpr ⟨_, listed, hd⟩
      rintro (⟨r', hr', rfl⟩ | ⟨c', hc', rfl⟩)
      · exact pair r' hr' c hc _ (List.mem_pair.mpr (Or.inl rfl))
      · exact pair r hr c' hc' _ (List.mem_pair.mpr (Or.inr rfl))

/-- What is checked first and fails is the reason of the refusal, and with nothing to find fault
with there is a view for each single request. -/
theorem make_eq (b : Batch) :
    b.make = ((b.requests.flatMap Request.demands).find? fun d => ¬d.Met).elim
      (.ok (b.requests.map Request.granted)) fun d => .error d.refusal := by
  rw [make_eq_mapM, Request.mapM_make, Demand.forM_check]
  cases (b.requests.flatMap Request.demands).find? (fun d => ¬d.Met) with
  | none => rfl
  | some d => rfl

theorem met_of_ok {vs : List View} (made : b.make = .ok vs) :
    (∀ d ∈ b.requests.flatMap Request.demands, d.Met) ∧ vs = b.requests.map Request.granted := by
  rw [make_eq] at made
  cases first : (b.requests.flatMap Request.demands).find? (fun d => ¬d.Met) with
  | none =>
    rw [first] at made
    cases made
    exact ⟨find?_fails_eq_none.mp first, rfl⟩
  | some d =>
    rw [first] at made
    cases made

theorem first_of_error {e : Refusal} (refused : b.make = .error e) :
    ∃ d, (b.requests.flatMap Request.demands).find? (fun d => ¬d.Met) = some d ∧
      e = d.refusal := by
  rw [make_eq] at refused
  cases first : (b.requests.flatMap Request.demands).find? (fun d => ¬d.Met) with
  | none =>
    rw [first] at refused
    cases refused
  | some d =>
    rw [first] at refused
    cases refused
    exact ⟨d, rfl, rfl⟩

/-- With no pair of ranges there is nothing to refuse. -/
theorem full_of_error {e : Refusal} (refused : b.make = .error e) : ¬b.IsBare := by
  intro bare
  obtain ⟨d, first, -⟩ := first_of_error refused
  rw [requests_of_bare bare] at first
  cases first

theorem length_requests_cutBlocks (g : Grid) (rows columns : List IndexRange) :
    (cutBlocks g rows columns).requests.length = rows.length * columns.length :=
  length_pairs (Request.cutBlock g) rows columns

/-- Ranges that are given are refused when one of them has a member that is no position of its
axis, except for blocks with no ranges on one side; the first such range in the order of the single
requests is the reason. Otherwise there is one view for each single request, in order, and it is
the one that this request gets by itself. The blocks of a row of ranges follow one another. -/
theorem make_refuses_misfit_unless_bare (b : Batch) :
    ((∃ e, b.make = .error e) ↔ ¬b.IsBare ∧ ∃ d ∈ b.demands, ¬d.Met) ∧
    (∀ e, b.make = .error e → ∃ d ∈ b.demands,
      (b.requests.flatMap Request.demands).find? (fun d => ¬d.Met) = some d ∧ e = d.refusal) ∧
    (∀ vs, b.make = .ok vs → vs.length = b.requests.length ∧
      ∀ (i : Nat) (q : Request), b.requests[i]? = some q →
        ∃ v, vs[i]? = some v ∧ q.make = .ok v) ∧
    ∀ g rows columns, b = .cutBlocks g rows columns →
      b.requests.length = rows.length * columns.length ∧
      ∀ (i j : Nat) (r c : IndexRange), rows[i]? = some r → columns[j]? = some c →
        b.requests[i * columns.length + j]? = some (.cutBlock g r c) := by
  refine ⟨⟨?_, ?_⟩, ?_, ?_, ?_⟩
  · rintro ⟨e, refused⟩
    obtain ⟨d, first, -⟩ := first_of_error refused
    have full := full_of_error refused
    have listed := (mem_checked full).mp (List.mem_of_find?_eq_some first)
    exact ⟨full, d, listed, by simpa using List.find?_some first⟩
  · rintro ⟨full, d, hd, unmet⟩
    cases made : b.make with
    | error e => exact ⟨e, rfl⟩
    | ok vs => exact absurd ((met_of_ok made).1 d ((mem_checked full).mpr hd)) unmet
  · intro e refused
    obtain ⟨d, first, reason⟩ := first_of_error refused
    have listed := List.mem_of_find?_eq_some first
    exact ⟨d, (mem_checked (full_of_error refused)).mp listed, first, reason⟩
  · intro vs made
    obtain ⟨met, rfl⟩ := met_of_ok made
    refine ⟨List.length_map _, ?_⟩
    intro i q hq
    have own : ∀ d ∈ q.demands, d.Met := fun d hd =>
      met d (List.mem_flatMap.mpr ⟨q, List.mem_of_getElem? hq, hd⟩)
    refine ⟨q.granted, by rw [List.getElem?_map, hq]; rfl, ?_⟩
    rw [Request.make_eq_granted, Demand.forM_check, find?_fails_eq_none.mpr own]
    rfl
  · rintro g rows columns rfl
    refine ⟨length_requests_cutBlocks g rows columns, ?_⟩
    intro i j r c hr hc
    exact getElem?_pairs (Request.cutBlock g) hr hc

/-- Two bands of rows by two of columns of a matrix of three rows and four columns, and then the
same with a range past the last column. -/
theorem make_refuses_misfit_unless_bare_of_pairs :
    let g : Grid := ⟨⟨0, 12⟩, 3, 4, rfl⟩
    let upper : IndexRange := ⟨0, 1, 1, by decide, by decide⟩
    let lower : IndexRange := ⟨1, 1, 2, by decide, by decide⟩
    let left : IndexRange := ⟨0, 2, 2, by decide, by decide⟩
    let right : IndexRange := ⟨2, 1, 2, by decide, by decide⟩
    let past : IndexRange := ⟨3, 1, 2, by decide, by decide⟩
    (∃ vs v, (cutBlocks g [upper, lower] [left, right]).make = .ok vs ∧ vs.length = 4 ∧
      vs[2]? = some v ∧ View.cutBlock g lower left = .ok v) ∧
    ∃ e, (cutBlocks g [upper, lower] [left, past]).make = .error e ∧
      e = .misfit none .matrixColumn past 4 := by
  intro g upper lower left right past
  constructor
  · obtain ⟨refused, -, granted, order⟩ :=
      make_refuses_misfit_unless_bare (cutBlocks g [upper, lower] [left, right])
    obtain ⟨count, place⟩ := order g _ _ rfl
    cases made : (cutBlocks g [upper, lower] [left, right]).make with
    | error e => exact absurd (refused.mp ⟨e, made⟩).2 (by decide)
    | ok vs =>
      obtain ⟨length, views⟩ := granted vs made
      obtain ⟨v, hv, single⟩ := views 2 _ (place 1 0 lower left rfl rfl)
      exact ⟨vs, v, rfl, length.trans count, hv, single⟩
  · obtain ⟨refused, reason, -, -⟩ :=
      make_refuses_misfit_unless_bare (cutBlocks g [upper, lower] [left, past])
    have full : ¬(cutBlocks g [upper, lower] [left, past]).IsBare := by simp [IsBare]
    obtain ⟨e, error⟩ := refused.mpr ⟨full, by decide⟩
    obtain ⟨d, -, first, rfl⟩ := reason e error
    obtain rfl : (⟨.matrixColumn, past, 4⟩ : Demand) = d := Option.some.inj first
    exact ⟨_, error, rfl⟩

/-- Rows past the end of a matrix are no reason for a refusal when no columns are asked for. -/
theorem blocks_of_no_columns_unchecked :
    let b : Batch := .cutBlocks ⟨⟨0, 4⟩, 2, 2, rfl⟩ [⟨5, 1, 1, by decide, by decide⟩] []
    (∃ d ∈ b.demands, ¬d.Met) ∧ b.make = .ok [] := by
  intro b
  exact ⟨by decide, rfl⟩

end Batch

end WireView
