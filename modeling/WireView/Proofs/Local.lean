import WireView.Local
import WireView.Proofs.Copying
import WireView.Proofs.Making
import WireView.Proofs.Requests

/-!
# Local routines against views

The local routines have loops of their own, over plain arrays or along the rows of two blocks. Each
checks its ranges in a fixed order before the first write, so a refusal leaves everything as it was.
Otherwise the routine counts the items it combines and leaves what the copy between the views of the
same ranges leaves, wherever two blocks of one storage overlap.
-/

namespace WireView

variable {t : ItemKind}

theorem modify_eq_set {α : Type} {xs : Array α} {i : Nat} {x : α} (h : xs[i]? = some x)
    (f : α → α) : xs.modify i f = xs.setIfInBounds i (f x) := by
  grind

theorem modify_of_size_le {α : Type} {xs : Array α} {i : Nat} (past : xs.size ≤ i) (f : α → α) :
    xs.modify i f = xs := by
  grind

theorem IndexRange.positions_lt (r : IndexRange) {extent n : Nat} (fits : r.Fits extent)
    (few : n ≤ r.length) : ∀ j ∈ List.range n, r.position j < extent := by
  intro j hj
  exact r.position_lt fits (Nat.lt_of_lt_of_le (List.mem_range.mp hj) few)

namespace Memory

variable {fold : Option (Fold (Item t))}

theorem bank_write (m : Memory t) (l : Location) (x : Item t) (b : Nat) :
    (m.write l x).bank b =
      if l.bank = b then (m.bank b).setIfInBounds l.slot x else m.bank b := by
  unfold bank write
  simp only [Array.getD_eq_getD_getElem?, Array.getElem?_modify]
  split
  · cases m.banks[b]? <;> simp
  · rfl

theorem bank_merge (m : Memory t) (l : Location) (x : Item t) (b : Nat) :
    (m.merge fold l x).bank b =
      if l.bank = b then (m.bank b).modify l.slot fun y => merged fold y x else m.bank b := by
  cases h : m.cell? l with
  | none =>
    have past : (m.bank l.bank).size ≤ l.slot := Array.getElem?_eq_none_iff.mp h
    simp only [merge, h]
    split
    · next same => rw [← same, modify_of_size_le past]
    · rfl
  | some y =>
    have held : (m.bank l.bank)[l.slot]? = some y := h
    simp only [merge, h, bank_write]
    split
    · next same => rw [← same, modify_eq_set held]
    · rfl

theorem bank_carry_of_ne {w : Step} {b : Nat} (m : Memory t) (other : w.2.bank ≠ b) :
    (m.carry fold w).bank b = m.bank b := by
  unfold carry
  split
  · rw [bank_merge, if_neg other]
  · rfl

/-- Steps that write elsewhere leave a bank as it is. -/
theorem bank_carryAll_of_ne {ws : List Step} {b : Nat} (m : Memory t)
    (other : ∀ w ∈ ws, w.2.bank ≠ b) : (m.carryAll fold ws).bank b = m.bank b := by
  induction ws generalizing m with
  | nil => rfl
  | cons w ws ih =>
    rw [carryAll_cons, ih _ fun v hv => other v (List.mem_cons_of_mem w hv)]
    exact bank_carry_of_ne m (other w List.mem_cons_self)

end Memory

theorem Routine.act_eq {β : Type} {action : Action t β} {m m' : Memory t} {x : β}
    (h : action m = .ok x m') : Routine.act action m = .ok x m' := by
  rw [Routine.act, h]

theorem Routine.get_eq {σ : Type} (s : σ) : (get : Routine σ σ) s = .ok s s := rfl

/-- A range asked for on one side of a local routine. -/
structure SidedDemand extends Demand where
  side : Side

namespace SidedDemand

def refusal (d : SidedDemand) : Refusal := .misfit (some d.side) d.axis d.range d.extent

def check (d : SidedDemand) : Except Refusal Unit := d.range.check (some d.side) d.axis d.extent

theorem check_eq (d : SidedDemand) :
    d.check = if d.Met then .ok () else .error d.refusal := d.check_range (some d.side)

/-- The checks end at the first demand that is not met. -/
theorem forM_check (ds : List SidedDemand) :
    forM ds check = (ds.find? fun d => ¬d.Met).elim (.ok ()) fun d => .error d.refusal :=
  forM_checks check_eq ds

end SidedDemand

namespace Local

variable {fold : Option (Fold (Item t))} {f : Item t → Item t → Item t}
variable {source destination : Array (Item t)} {r r' : IndexRange}

section arrays

/-- The ranges that a routine over arrays asks for, in the order in which they are checked. -/
def arrayDemands (extent : Nat) (r : IndexRange) (extent' : Nat) (r' : IndexRange) :
    List SidedDemand :=
  [⟨⟨.array, r, extent⟩, .source⟩, ⟨⟨.array, r', extent'⟩, .destination⟩]

/-- The routine that copies when there is nothing to fold with, and folds otherwise. -/
def combineArray (fold : Option (Fold (Item t))) (source : Array (Item t)) (r r' : IndexRange) :
    Routine (Array (Item t)) Nat :=
  match fold with
  | none => copyArray source r r'
  | some f => foldArray source r r' f

def combineMember (fold : Option (Fold (Item t))) (source : Array (Item t)) (r r' : IndexRange) :
    Nat → Routine (Array (Item t)) Unit :=
  match fold with
  | none => copyMember source r r'
  | some f => foldMember source r r' f

/-- What becomes of the destination when one member is set. -/
def updateMember (f : Item t → Item t → Item t) (source : Array (Item t)) (r r' : IndexRange)
    (items : Array (Item t)) (j : Nat) : Array (Item t) :=
  match source[r.position j]? with
  | some x => items.modify (r'.position j) fun y => f y x
  | none => items

theorem itemAt_eq {items : Array (Item t)} {i : Nat} {x : Item t} (held : items[i]? = some x) :
    itemAt items i destination = .ok x destination := by
  rw [itemAt, held]
  rfl

theorem putItem_eq {i : Nat} (inside : i < destination.size) (x : Item t) :
    putItem i x destination = .ok () (destination.setIfInBounds i x) := by
  rw [putItem, bind_of_ok (Routine.get_eq destination), if_pos inside]
  rfl

theorem combineMember_eq {j : Nat} (inside : r.position j < source.size)
    (inside' : r'.position j < destination.size) :
    combineMember fold source r r' j destination =
      .ok () (updateMember (merged fold) source r r' destination j) := by
  obtain ⟨x, hx⟩ : ∃ x, source[r.position j]? = some x := ⟨_, Array.getElem?_eq_getElem inside⟩
  obtain ⟨y, hy⟩ : ∃ y, destination[r'.position j]? = some y :=
    ⟨_, Array.getElem?_eq_getElem inside'⟩
  have updated : updateMember (merged fold) source r r' destination j =
      destination.setIfInBounds (r'.position j) (merged fold y x) := by
    simp only [updateMember, hx]
    exact modify_eq_set hy _
  rw [updated]
  cases fold with
  | none =>
    rw [combineMember, copyMember, bind_of_ok (itemAt_eq hx)]
    exact putItem_eq inside' x
  | some f =>
    rw [combineMember, foldMember, bind_of_ok (Routine.get_eq destination),
      bind_of_ok (itemAt_eq hy), bind_of_ok (itemAt_eq hx)]
    exact putItem_eq inside' (f.apply y x)

theorem size_updateMember (items : Array (Item t)) (j : Nat) :
    (updateMember f source r r' items j).size = items.size := by
  unfold updateMember
  split
  · exact Array.size_modify
  · rfl

/-- With every member inside, the loop runs to its end. -/
theorem forM_combineMember {js : List Nat} (inside : ∀ j ∈ js, r.position j < source.size)
    (inside' : ∀ j ∈ js, r'.position j < destination.size) :
    js.forM (combineMember fold source r r') destination =
      .ok () (js.foldl (updateMember (merged fold) source r r') destination) := by
  induction js generalizing destination with
  | nil => rfl
  | cons j js ih =>
    have first : combineMember fold source r r' j destination = _ :=
      combineMember_eq (inside j List.mem_cons_self) (inside' j List.mem_cons_self)
    have later : ∀ k ∈ js,
        r'.position k < (updateMember (merged fold) source r r' destination j).size := by
      intro k hk
      rw [size_updateMember]
      exact inside' k (List.mem_cons_of_mem j hk)
    rw [List.foldl_cons, ← ih (fun k hk => inside k (List.mem_cons_of_mem j hk)) later]
    exact bind_of_ok first

/-- Steps from one bank to another set members of the second from those of the first. -/
theorem bank_carryAll {a b : Nat} (apart : a ≠ b) (js : List Nat) (m : Memory t) :
    (m.carryAll fold (js.map fun j => (⟨a, r.position j⟩, ⟨b, r'.position j⟩))).bank b =
      js.foldl (updateMember (merged fold) (m.bank a) r r') (m.bank b) := by
  induction js generalizing m with
  | nil => rfl
  | cons j js ih =>
    have kept : (m.carry fold (⟨a, r.position j⟩, ⟨b, r'.position j⟩)).bank a = m.bank a :=
      Memory.bank_carry_of_ne m apart.symm
    have set : (m.carry fold (⟨a, r.position j⟩, ⟨b, r'.position j⟩)).bank b =
        updateMember (merged fold) (m.bank a) r r' (m.bank b) j := by
      rw [Memory.carry, updateMember, Memory.cell?]
      split
      · next x hx => simp only [hx, Memory.bank_merge, if_true]
      · next hx => simp only [hx]
    rw [List.map_cons, Memory.carryAll_cons, ih, kept, set, List.foldl_cons]

theorem steps_arrays (s d : Region) (r r' : IndexRange) (n : Nat) :
    (View.array s r).steps (View.array d r') 0 n =
      (List.range n).map fun j => (⟨s.bank, r.position j⟩, ⟨d.bank, r'.position j⟩) := by
  rw [View.steps, View.cells, View.cells, List.zip_map', List.range_eq_range']
  rfl

/-- The checks come first. -/
theorem combineArray_eq (fold : Option (Fold (Item t))) (source : Array (Item t))
    (r r' : IndexRange) (destination : Array (Item t)) :
    combineArray fold source r r' destination = (do
      .require (forM (arrayDemands source.size r destination.size r') SidedDemand.check)
      (List.range (min r.length r'.length)).forM (combineMember fold source r r')
      return min r.length r'.length : Routine (Array (Item t)) Nat) destination := by
  have members : combineArray fold source r r' =
      setMembers source r r' (combineMember fold source r r') := by
    cases fold <;> rfl
  rw [members, setMembers, bind_of_ok (Routine.get_eq destination), arrayDemands, List.forM_cons,
    List.forM_cons, SidedDemand.check, SidedDemand.check]
  cases r.check (some .source) .array source.size <;>
    cases r'.check (some .destination) .array destination.size <;> rfl

theorem combineArray_of_unmet {d : SidedDemand}
    (first : (arrayDemands source.size r destination.size r').find? (fun d => ¬d.Met) = some d) :
    combineArray fold source r r' destination = .error (.refused d.refusal) destination := by
  rw [combineArray_eq, SidedDemand.forM_check, first]
  rfl

theorem fits_of_met (met : ∀ d ∈ arrayDemands source.size r destination.size r', d.Met) :
    r.Fits source.size ∧ r'.Fits destination.size :=
  ⟨(Demand.met_iff _).mp (met _ List.mem_cons_self),
    (Demand.met_iff _).mp (met _ (List.mem_cons_of_mem _ List.mem_cons_self))⟩

theorem combineArray_of_met (met : ∀ d ∈ arrayDemands source.size r destination.size r', d.Met) :
    combineArray fold source r r' destination = .ok (min r.length r'.length)
      ((List.range (min r.length r'.length)).foldl
        (updateMember (merged fold) source r r') destination) := by
  obtain ⟨fits, fits'⟩ := fits_of_met met
  have inside := r.positions_lt fits (Nat.min_le_left r.length r'.length)
  have inside' := r'.positions_lt fits' (Nat.min_le_right r.length r'.length)
  rw [combineArray_eq, SidedDemand.forM_check, find?_fails_eq_none.mpr met]
  exact bind_of_ok (forM_combineMember inside inside')

/-- The copy between slices of two banks does to the second what the routine does to an array, and
nothing to other banks. -/
theorem absorb_slices {m : Memory t} {a b : Nat} (apart : a ≠ b) (held : m.bank a = source)
    (held' : m.bank b = destination)
    (met : ∀ d ∈ arrayDemands source.size r destination.size r', d.Met) :
    ∃ m', Endpoint.absorb ⟨.array ⟨b, destination.size⟩ r', fold⟩
        ⟨.array ⟨a, source.size⟩ r, none⟩ m = .ok () m' ∧
      m'.bank b = (List.range (min r.length r'.length)).foldl
        (updateMember (merged fold) source r r') destination ∧
      ∀ c, c ≠ b → m'.bank c = m.bank c := by
  obtain ⟨fits, fits'⟩ := fits_of_met met
  have laid : (View.array ⟨a, source.size⟩ r).Laid m :=
    View.laid_of_region fits rfl (congrArg Array.size held)
  have laid' : (View.array ⟨b, destination.size⟩ r').Laid m :=
    View.laid_of_region fits' rfl (congrArg Array.size held')
  have differ : Endpoint.identity ⟨.array ⟨a, source.size⟩ r, (none : Option (Fold (Item t)))⟩ ≠
      Endpoint.identity ⟨.array ⟨b, destination.size⟩ r', fold⟩ := by
    intro same
    exact apart (Option.some.inj (congrArg Identity.bank same))
  refine ⟨_, absorb_eq laid' laid differ, ?_, ?_⟩
  · rw [steps_arrays, bank_carryAll apart, held, held']
    rfl
  · intro c other
    rw [steps_arrays]
    apply Memory.bank_carryAll_of_ne
    intro w hw
    obtain ⟨j, -, rfl⟩ := List.mem_map.mp hw
    exact other.symm

end arrays

section blocks

variable {g g' : Grid} {rows columns rows' columns' : IndexRange} {m : Memory t}

def blockDemands (g : Grid) (rows columns : IndexRange) (g' : Grid) (rows' columns' : IndexRange) :
    List SidedDemand :=
  [⟨⟨.matrixRow, rows, g.rows⟩, .source⟩, ⟨⟨.matrixColumn, columns, g.columns⟩, .source⟩,
    ⟨⟨.matrixRow, rows', g'.rows⟩, .destination⟩,
    ⟨⟨.matrixColumn, columns', g'.columns⟩, .destination⟩]

def blockRequest (g : Grid) (rows columns : IndexRange) (g' : Grid) (rows' columns' : IndexRange) :
    Except Refusal Unit := do
  forM (blockDemands g rows columns g' rows' columns') SidedDemand.check
  if rows.length ≠ rows'.length ∨ columns.length ≠ columns'.length then
    throw (.unequalBlocks (rows.length, columns.length) (rows'.length, columns'.length))

theorem foldBlock_eq_request (f : Fold (Item t)) :
    foldBlock f g rows columns g' rows' columns' = (do
      .require (blockRequest g rows columns g' rows' columns')
      .act (writeBlocks (some f) g rows columns g' rows' columns')
      return rows.length * columns.length) := by
  have request : blockRequest g rows columns g' rows' columns' = (do
      rows.check (some .source) .matrixRow g.rows
      columns.check (some .source) .matrixColumn g.columns
      rows'.check (some .destination) .matrixRow g'.rows
      columns'.check (some .destination) .matrixColumn g'.columns
      if rows.length ≠ rows'.length ∨ columns.length ≠ columns'.length then
        throw (.unequalBlocks (rows.length, columns.length) (rows'.length, columns'.length))) := by
    rw [blockRequest, blockDemands]
    simp only [List.forM_cons, List.forM_nil, bind_assoc, pure_bind]
    rfl
  rw [request]
  rfl

theorem fits_blocks (met : ∀ d ∈ blockDemands g rows columns g' rows' columns', d.Met) :
    (View.block g rows columns).Fits ∧ (View.block g' rows' columns').Fits := by
  have fits : ∀ d ∈ blockDemands g rows columns g' rows' columns', d.range.Fits d.extent :=
    fun d hd => d.met_iff.mp (met d hd)
  simpa [blockDemands, View.Fits, and_assoc] using fits

theorem foldBlock_of_unmet (f : Fold (Item t)) {d : SidedDemand}
    (first : (blockDemands g rows columns g' rows' columns').find? (fun d => ¬d.Met) = some d) :
    foldBlock f g rows columns g' rows' columns' m = .error (.refused d.refusal) m := by
  rw [foldBlock_eq_request, blockRequest, SidedDemand.forM_check, first]
  rfl

theorem foldBlock_of_unequal (f : Fold (Item t))
    (met : ∀ d ∈ blockDemands g rows columns g' rows' columns', d.Met)
    (unequal : rows.length ≠ rows'.length ∨ columns.length ≠ columns'.length) :
    foldBlock f g rows columns g' rows' columns' m = .error (.refused (.unequalBlocks
      (rows.length, columns.length) (rows'.length, columns'.length))) m := by
  rw [foldBlock_eq_request, blockRequest, SidedDemand.forM_check, find?_fails_eq_none.mpr met,
    if_pos unequal]
  rfl

/-- On blocks of one shape the routine takes the steps of the copy. The copy never takes the two for
one view, since only its destination folds. -/
theorem foldBlock_eq_absorb (f : Fold (Item t))
    (met : ∀ d ∈ blockDemands g rows columns g' rows' columns', d.Met)
    (sameRows : rows.length = rows'.length) (sameColumns : columns.length = columns'.length)
    (held : m.Holds g.storage) (held' : m.Holds g'.storage) :
    ∃ m', foldBlock f g rows columns g' rows' columns' m =
        .ok (rows.length * columns.length) m' ∧
      Endpoint.absorb ⟨.block g' rows' columns', some f⟩ ⟨.block g rows columns, none⟩ m =
        .ok () m' := by
  obtain ⟨fits, fits'⟩ := fits_blocks met
  have laid : (View.block g rows columns).Laid m := View.laid_of_region fits rfl held
  have laid' : (View.block g' rows' columns').Laid m := View.laid_of_region fits' rfl held'
  have differ : Endpoint.identity ⟨.block g rows columns, (none : Option (Fold (Item t)))⟩ ≠
      Endpoint.identity ⟨.block g' rows' columns', some f⟩ := by
    intro same
    cases congrArg Identity.folding same
  have walked := writeBlocks_eq laid' laid sameRows sameColumns (some f)
  have copied : Endpoint.absorb ⟨.block g' rows' columns', some f⟩
      ⟨.block g rows columns, none⟩ m = _ := absorb_eq laid' laid differ
  have equal : ¬(rows.length ≠ rows'.length ∨ columns.length ≠ columns'.length) := by
    rintro (unequal | unequal)
    · exact unequal sameRows
    · exact unequal sameColumns
  simp only [Endpoint.length, View.length, ← sameRows, ← sameColumns, Nat.min_self] at copied
  refine ⟨_, ?_, copied⟩
  rw [foldBlock_eq_request, blockRequest, SidedDemand.forM_check, find?_fails_eq_none.mpr met,
    if_neg equal]
  exact bind_of_ok (Routine.act_eq walked)

end blocks

/-- The local routines fail just where a range does not fit, the first in their order of checks, or
where two blocks differ in shape, and a failure changes nothing. Otherwise they tell how many items
they combined, and they leave what the copy between the views of the same ranges leaves: arrays in
two banks of a memory, blocks of one storage or of two. -/
theorem routines_agree_with_views :
    (∀ (fold : Option (Fold (Item t))) (source : Array (Item t)) (r r' : IndexRange)
      (destination : Array (Item t)),
      let asked := arrayDemands source.size r destination.size r'
      (∀ d, asked.find? (fun d => ¬d.Met) = some d →
        combineArray fold source r r' destination = .error (.refused d.refusal) destination) ∧
      ((∀ d ∈ asked, d.Met) → ∃ final,
        combineArray fold source r r' destination = .ok (min r.length r'.length) final ∧
        ∀ (m : Memory t) (a b : Nat), a ≠ b → m.bank a = source → m.bank b = destination →
          ∃ v v' m', View.slice ⟨a, source.size⟩ r = .ok v ∧
            View.slice ⟨b, destination.size⟩ r' = .ok v' ∧
            Endpoint.absorb ⟨v', fold⟩ ⟨v, none⟩ m = .ok () m' ∧ m'.bank b = final ∧
            ∀ c, c ≠ b → m'.bank c = m.bank c)) ∧
    ∀ (f : Fold (Item t)) (g : Grid) (rows columns : IndexRange) (g' : Grid)
      (rows' columns' : IndexRange) (m : Memory t),
      let asked := blockDemands g rows columns g' rows' columns'
      (∀ d, asked.find? (fun d => ¬d.Met) = some d →
        foldBlock f g rows columns g' rows' columns' m = .error (.refused d.refusal) m) ∧
      ((∀ d ∈ asked, d.Met) → rows.length ≠ rows'.length ∨ columns.length ≠ columns'.length →
        foldBlock f g rows columns g' rows' columns' m = .error (.refused (.unequalBlocks
          (rows.length, columns.length) (rows'.length, columns'.length))) m) ∧
      ((∀ d ∈ asked, d.Met) → rows.length = rows'.length → columns.length = columns'.length →
        m.Holds g.storage → m.Holds g'.storage →
        ∃ v v' m', View.cutBlock g rows columns = .ok v ∧
          View.cutBlock g' rows' columns' = .ok v' ∧
          foldBlock f g rows columns g' rows' columns' m = .ok v.length m' ∧
          Endpoint.absorb ⟨v', some f⟩ ⟨v, none⟩ m = .ok () m') := by
  constructor
  · intro fold source r r' destination asked
    constructor
    · intro d first
      exact combineArray_of_unmet first
    · intro met
      refine ⟨_, combineArray_of_met met, ?_⟩
      intro m a b apart held held'
      obtain ⟨fits, fits'⟩ := fits_of_met met
      obtain ⟨m', copied, final, others⟩ := absorb_slices apart held held' met
      exact ⟨_, _, m', View.slice_of_fits fits, View.slice_of_fits fits', copied, final, others⟩
  · intro f g rows columns g' rows' columns' m asked
    refine ⟨?_, ?_, ?_⟩
    · intro d first
      exact foldBlock_of_unmet f first
    · intro met unequal
      exact foldBlock_of_unequal f met unequal
    · intro met sameRows sameColumns held held'
      obtain ⟨⟨rowFits, columnFits⟩, rowFits', columnFits'⟩ := fits_blocks met
      obtain ⟨m', folded, copied⟩ := foldBlock_eq_absorb f met sameRows sameColumns held held'
      exact ⟨_, _, m', View.cutBlock_of_fits rowFits columnFits,
        View.cutBlock_of_fits rowFits' columnFits', folded, copied⟩

/-- Every second item of five is added to three of four. Of a square, the lower right block is added
to the upper left one, which overlaps it; a block of other shape is refused, and so are rows past
the end, on the side of the source before that of the destination. -/
theorem routines_agree_with_views_in_square :
    let sum : Fold (Item .int32) := ⟨"sum", (· + ·)⟩
    let even : IndexRange := ⟨0, 2, 3, by decide, by decide⟩
    let low : IndexRange := ⟨0, 1, 2, by decide, by decide⟩
    let high : IndexRange := ⟨1, 1, 2, by decide, by decide⟩
    let all : IndexRange := ⟨0, 1, 3, by decide, by decide⟩
    let past : IndexRange := ⟨2, 1, 2, by decide, by decide⟩
    let square : Grid := ⟨⟨0, 9⟩, 3, 3, rfl⟩
    let m : Memory .int32 := ⟨#[#[1, 2, 3, 4, 5, 6, 7, 8, 9]]⟩
    let arrays : Memory .int32 := ⟨#[#[1, 100, 2, 100, 3], #[10, 20, 30, 40]]⟩
    let left : Memory .int32 := ⟨#[#[6, 8, 3, 12, 14, 6, 7, 8, 9]]⟩
    (∃ v v' m', View.slice ⟨0, 5⟩ even = .ok v ∧ View.slice ⟨1, 4⟩ all = .ok v' ∧
      combineArray (some sum) #[1, 100, 2, 100, 3] even all #[10, 20, 30, 40] =
        .ok 3 #[11, 22, 33, 40] ∧
      Endpoint.absorb ⟨v', some sum⟩ ⟨v, none⟩ arrays = .ok () m' ∧
      m'.bank 1 = #[11, 22, 33, 40]) ∧
    (∃ v v', View.cutBlock square high high = .ok v ∧ View.cutBlock square low low = .ok v' ∧
      foldBlock sum square high high square low low m = .ok 4 left ∧
      Endpoint.absorb ⟨v', some sum⟩ ⟨v, none⟩ m = .ok () left) ∧
    foldBlock sum square all low square low all m =
      .error (.refused (.unequalBlocks (3, 2) (2, 3))) m ∧
    foldBlock sum square past low square low past m =
      .error (.refused (.misfit (some .source) .matrixRow past 3)) m := by
  intro sum even low high all past square m arrays left
  obtain ⟨overArrays, overBlocks⟩ := routines_agree_with_views (t := .int32)
  refine ⟨?_, ?_, ?_, ?_⟩
  · obtain ⟨-, granted⟩ := overArrays (some sum) #[1, 100, 2, 100, 3] even all #[10, 20, 30, 40]
    obtain ⟨final, combined, views⟩ := granted (by decide)
    have value : combineArray (some sum) #[1, 100, 2, 100, 3] even all #[10, 20, 30, 40] =
        .ok 3 #[11, 22, 33, 40] := rfl
    cases combined.symm.trans value
    obtain ⟨v, v', m', slice, slice', copied, held, -⟩ := views arrays 0 1 (by decide) rfl rfl
    exact ⟨v, v', m', slice, slice', combined, copied, held⟩
  · obtain ⟨-, -, equal⟩ := overBlocks sum square high high square low low m
    obtain ⟨v, v', m', cut, cut', folded, copied⟩ := equal (by decide) rfl rfl rfl rfl
    have value : foldBlock sum square high high square low low m = .ok 4 left := rfl
    obtain rfl : m' = left := (EStateM.Result.ok.inj (folded.symm.trans value)).2
    exact ⟨v, v', cut, cut', value, copied⟩
  · obtain ⟨-, unequal, -⟩ := overBlocks sum square all low square low all m
    exact unequal (by decide) (Or.inl (by decide))
  · obtain ⟨misfit, -, -⟩ := overBlocks sum square past low square low past m
    exact misfit _ rfl

end Local

end WireView
