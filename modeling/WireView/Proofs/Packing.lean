import WireView.Proofs.Bytes
import WireView.Proofs.Unpacking

/-!
# Reading items off a view

In a memory that serves its view, packing leaves the memory alone and writes the encodings of the
items that reading by index yields, one after another. So the bytes tell nothing of the form of the
view: they depend on its logical contents, on the first item and on the room.
-/

namespace WireView

variable {t : ItemKind} {m : Memory t}

namespace Memory

variable {ls ks : List Location}

/-- The items in some cells. A cell that does not exist has none. -/
def itemsAt (m : Memory t) (ls : List Location) : List (Item t) := ls.filterMap m.cell?

theorem itemsAt_append (m : Memory t) (ls ks : List Location) :
    m.itemsAt (ls ++ ks) = m.itemsAt ls ++ m.itemsAt ks :=
  List.filterMap_append

theorem map_some_itemsAt (present : ∀ l ∈ ls, l ∈ m) :
    (m.itemsAt ls).map some = ls.map m.cell? := by
  induction ls with
  | nil => rfl
  | cons l ls ih =>
    obtain ⟨x, hx⟩ := mem_iff.mp (present l List.mem_cons_self)
    have rest := ih fun k hk => present k (List.mem_cons_of_mem l hk)
    rw [itemsAt] at rest
    rw [itemsAt, List.filterMap_cons_some hx, List.map_cons, List.map_cons, hx, rest]

theorem length_itemsAt (present : ∀ l ∈ ls, l ∈ m) : (m.itemsAt ls).length = ls.length := by
  have lengths := congrArg List.length (map_some_itemsAt present)
  rwa [List.length_map, List.length_map] at lengths

end Memory

theorem loadAll_eq {ls : List Location} (present : ∀ l ∈ ls, l ∈ m) :
    loadAll ls m = .ok (m.itemsAt ls) m := by
  induction ls with
  | nil => rfl
  | cons l ls ih =>
    obtain ⟨x, hx⟩ := Memory.mem_iff.mp (present l List.mem_cons_self)
    have rest := ih fun k hk => present k (List.mem_cons_of_mem l hk)
    have items : m.itemsAt (l :: ls) = x :: m.itemsAt ls := List.filterMap_cons_some hx
    rw [loadAll, bind_of_ok (load_eq hx), items]
    exact bind_of_ok rest

theorem loadAll_append (ls ks : List Location) :
    (loadAll (ls ++ ks) : Action t (List (Item t))) =
      loadAll ls >>= fun xs => loadAll ks >>= fun ys => pure (xs ++ ys) := by
  induction ls with
  | nil => simp [loadAll]
  | cons l ls ih => simp [loadAll, ih]

/-- The visit of a walk that reads: the items of some cells after those read before. -/
def collect (ls : List Location) (xs : List (Item t)) : Action t (List (Item t)) := do
  return xs ++ (← loadAll ls)

theorem collect_nil (xs : List (Item t)) : collect [] xs = pure xs := by
  simp [collect, loadAll]

theorem collect_append (ls ks : List Location) (xs : List (Item t)) :
    collect (ls ++ ks) xs = collect ls xs >>= collect ks := by
  simp only [collect, loadAll_append, bind_assoc, pure_bind, List.append_assoc]

theorem collect_eq {ls : List Location} (present : ∀ l ∈ ls, l ∈ m) (xs : List (Item t)) :
    collect ls xs m = .ok (xs ++ m.itemsAt ls) m :=
  bind_of_ok (loadAll_eq present)

namespace Endpoint

variable {p q : Endpoint t} {start n : Nat}

def contents (p : Endpoint t) (start n : Nat) (m : Memory t) : List (Item t) :=
  m.itemsAt (p.view.cells start n)

theorem contents_add (p : Endpoint t) (start n k : Nat) (m : Memory t) :
    p.contents start (n + k) m = p.contents start n m ++ p.contents (start + n) k m := by
  rw [contents, View.cells_add, Memory.itemsAt_append]
  rfl

theorem length_contents (laid : p.view.Laid m) (hn : start + n ≤ p.length) :
    (p.contents start n m).length = n := by
  rw [contents, Memory.length_itemsAt (laid.cells_mem hn), View.length_cells]

theorem take_contents (laid : p.view.Laid m) (hn : start + n ≤ p.length) (k : Nat) :
    (p.contents start n m).take k = p.contents start (min k n) m := by
  by_cases h : k ≤ n
  · have split : n = k + (n - k) := by omega
    rw [Nat.min_eq_left h, split, contents_add, List.take_left' (length_contents laid (by omega))]
  · rw [Nat.min_eq_right (by omega), List.take_of_length_le]
    rw [length_contents laid hn]
    omega

theorem get?_contents (laid : p.view.Laid m) (hn : start + n ≤ p.length) {k : Nat} (hk : k < n) :
    (p.contents start n m)[k]? = m.cell? (p.view.location (start + k)) := by
  have same := congrArg (·[k]?) (Memory.map_some_itemsAt (laid.cells_mem hn))
  have cell : (p.view.cells start n)[k]? = some (p.view.location (start + k)) := by
    simp [View.cells, hk]
  simp only [List.getElem?_map, cell, Option.map_some] at same
  obtain ⟨x, hx, read⟩ := Option.map_eq_some_iff.mp same
  rw [contents, hx, read]

/-- Reading by index yields the items of the stretch. -/
theorem get_of_contents (laid : p.view.Laid m) (hn : start + n ≤ p.length) {k : Nat} {x : Item t}
    (hx : (p.contents start n m)[k]? = some x) : p.get (start + k) m = .ok x m := by
  have hk : k < n := by
    obtain ⟨hk, -⟩ := List.getElem?_eq_some_iff.mp hx
    rwa [length_contents laid hn] at hk
  rw [get?_contents laid hn hk] at hx
  exact get_eq (by omega) hx

theorem mapM_get (laid : p.view.Laid m) (hn : start + n ≤ p.length) :
    ((List.range' start n).mapM p.get : Action t (List (Item t))) m =
      .ok (p.contents start n m) m := by
  induction n generalizing start with
  | zero => rfl
  | succ n ih =>
    obtain ⟨x, hx⟩ := Memory.mem_iff.mp (laid.location_mem (i := start) (by
      simp only [length] at hn; omega))
    have items : p.contents start (n + 1) m = x :: p.contents (start + 1) n m :=
      List.filterMap_cons_some hx
    have rest : ((List.range' (start + 1) n).mapM p.get : Action t (List (Item t))) m =
        .ok (p.contents (start + 1) n m) m := ih (by omega)
    rw [List.range'_succ, List.mapM_cons, bind_of_ok (get_eq (by omega) hx), items]
    exact bind_of_ok rest

theorem packable_le (p : Endpoint t) (start : Nat) (room : Option Nat) :
    p.packable start room ≤ p.length - start := by
  cases room with
  | none => exact Nat.le_refl _
  | some bytes => exact Nat.min_le_left _ _

theorem pack_of_lt (hs : p.length < start) (room : Option Nat) :
    p.pack start room m = .error (.start start p.length) m :=
  bind_of_error (checkStart_of_lt hs)

/-- Packing writes the items that fit, from the first one on. -/
theorem pack_eq (laid : p.view.Laid m) (hs : start ≤ p.length) {room : Option Nat}
    (hn : n = p.packable start room) :
    p.pack start room m = .ok ⟨n, encodeAll (p.contents start n m)⟩ m := by
  have le := p.packable_le start room
  unfold pack
  rw [bind_of_ok (checkStart_eq hs)]
  simp only [← hn]
  by_cases zero : n = 0
  · subst n
    rw [if_pos zero, zero]
    rfl
  · have fit : start + n ≤ p.view.length := by
      simp only [length] at hs hn le
      omega
    have walked : p.view.throughRuns collect (p.view.runs start n) [] m =
        collect (p.view.cells start n) [] m :=
      View.throughRuns_runs collect_nil collect_append
        (fun _ xs _ present => ⟨_, _, collect_eq present xs, Memory.Alike.refl _⟩)
        laid (by omega) fit []
    rw [if_neg zero]
    exact (bind_of_ok (walked.trans (collect_eq (laid.cells_mem fit) [])) : _)

/-- Views of the same logical contents have the same items in every stretch. -/
theorem contents_eq_of_get {m' : Memory t} (lp : p.view.Laid m) (lq : q.view.Laid m')
    (len : q.length = p.length)
    (same : ∀ i < p.length, ∃ x, p.get i m = .ok x m ∧ q.get i m' = .ok x m')
    (hn : start + n ≤ p.length) : q.contents start n m' = p.contents start n m := by
  have hn' : start + n ≤ q.length := by omega
  apply List.ext_getElem
  · rw [length_contents lq hn', length_contents lp hn]
  · intro k hk hk'
    have here := get_of_contents lp hn (List.getElem?_eq_getElem hk')
    have there := get_of_contents lq hn' (List.getElem?_eq_getElem hk)
    rw [length_contents lp hn] at hk'
    obtain ⟨x, hp, hq⟩ := same (start + k) (by omega)
    rw [hp] at here
    rw [hq] at there
    injection here with here
    injection there with there
    rw [← here, ← there]

/-- Packing yields the encodings of the items that the item loop reads, as many as there are and
as fit, and leaves the memory alone. Any other view of the same logical contents packs to the same
bytes. A window without a limit takes all. -/
theorem pack_agrees_with_item_loop (p : Endpoint t) (m : Memory t) (laid : p.view.Laid m)
    {start : Nat} (hs : start ≤ p.length) (room : Option Nat) :
    let n := room.elim (p.length - start) fun bytes => min (p.length - start) (bytes / t.width)
    ∃ xs : List (Item t),
      ((List.range' start n).mapM p.get : Action t (List (Item t))) m = .ok xs m ∧
      p.pack start room m = .ok ⟨n, encodeAll xs⟩ m ∧
      (encodeAll xs).length = n * t.width ∧ (∀ bytes ∈ room, n * t.width ≤ bytes) ∧
      ∀ (q : Endpoint t) (m' : Memory t), q.view.Laid m' → q.length = p.length →
        (∀ i < p.length, ∃ x, p.get i m = .ok x m ∧ q.get i m' = .ok x m') →
        q.pack start room m' = .ok ⟨n, encodeAll xs⟩ m' := by
  intro n
  have count : n = p.packable start room := by cases room <;> rfl
  have le := p.packable_le start room
  have hn : start + n ≤ p.length := by omega
  refine ⟨p.contents start n m, mapM_get laid hn, pack_eq laid hs count, ?_, ?_, ?_⟩
  · rw [length_encodeAll, length_contents laid hn]
  · rintro bytes rfl
    exact le_wholeItems.mp (Nat.min_le_right _ _)
  · intro q m' lq len same
    have count' : n = q.packable start room := by
      unfold packable at count ⊢
      rw [len, count]
    rw [← contents_eq_of_get laid lq len same hn]
    exact pack_eq lq (by omega) count'

/-- Every second column of two rows of a square, and an array of the same four items. -/
theorem pack_agrees_with_item_loop_across_rows :
    let square : Grid := ⟨⟨0, 9⟩, 3, 3, rfl⟩
    let m : Memory .int16 := ⟨#[#[1, 2, 3, 4, 5, 6, 7, 8, 9], #[4, 6, 7, 9]]⟩
    let p : Endpoint .int16 :=
      ⟨.block square ⟨1, 1, 2, by decide, by decide⟩ ⟨0, 2, 2, by decide, by decide⟩, none⟩
    let q : Endpoint .int16 := ⟨.array ⟨1, 4⟩ ⟨0, 1, 4, by decide, by decide⟩, none⟩
    p.view.Laid m ∧ 1 ≤ p.length ∧ q.view.Laid m ∧ ¬p.view.IsDense ∧ q.view.IsDense ∧
      p.pack 1 (some 5) m = .ok ⟨2, [0, 6, 0, 7]⟩ m ∧
      q.pack 1 (some 5) m = .ok ⟨2, [0, 6, 0, 7]⟩ m := by
  intro square m p q
  have lp : p.view.Laid m := by decide
  have lq : q.view.Laid m := by decide
  obtain ⟨xs, read, packed, -, -, others⟩ :=
    pack_agrees_with_item_loop p m lp (by decide : 1 ≤ p.length) (some 5)
  have items : [6, 7] = xs := by
    injection read with items
  subst items
  refine ⟨lp, by decide, lq, by decide, by decide, packed, others q m lq rfl ?_⟩
  intro i hi
  match i, hi with
  | 0, _ => exact ⟨4, rfl, rfl⟩
  | 1, _ => exact ⟨6, rfl, rfl⟩
  | 2, _ => exact ⟨7, rfl, rfl⟩
  | 3, _ => exact ⟨9, rfl, rfl⟩

end Endpoint

end WireView
