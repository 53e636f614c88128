import WireView.Endpoint
import WireView.Proofs.Bytes
import WireView.Proofs.Runs

/-!
# Putting items at indices

In a memory that serves its view, an endpoint reads and writes single items by index, and
unpacking a window ends well too: it leaves what putting the items of the window one by one at the
indices from the first on would leave. An item that is put changes one cell, and no two items of
a stretch go to the same cell.
-/

namespace WireView

variable {t : ItemKind} {m : Memory t}

namespace Endpoint

variable {p : Endpoint t} {i start n : Nat}

theorem write_eq {l : Location} (h : l ∈ m) (p : Endpoint t) (x : Item t) :
    p.write l x m = .ok () (m.merge p.fold l x) := by
  by_cases shared : p.view.IsShared
  · rw [write, if_pos shared, writeShared_eq h]
  · rw [write, if_neg shared, writePlain_eq h]

theorem locate_eq {v : View} (hi : i < v.length) :
    (v.locate i : Action t Location) m = .ok (v.location i) m := by
  simp only [View.locate, View.locate?_eq hi]
  rfl

theorem get_eq {x : Item t} (hi : i < p.length) (hx : m.cell? (p.view.location i) = some x) :
    p.get i m = .ok x m :=
  (bind_of_ok (locate_eq hi)).trans (load_eq hx)

theorem put_eq (laid : p.view.Laid m) (hi : i < p.length) (x : Item t) :
    p.put i x m = .ok () (m.merge p.fold (p.view.location i) x) :=
  (bind_of_ok (locate_eq hi)).trans (write_eq (laid.location_mem hi) p x)

theorem locate_of_le {v : View} (hi : v.length ≤ i) :
    (v.locate i : Action t Location) m = .error (.index i v.length) m := by
  simp only [View.locate, View.locate?, if_neg (Nat.not_lt.mpr hi)]
  rfl

theorem get_of_le (hi : p.length ≤ i) : p.get i m = .error (.index i p.length) m :=
  bind_of_error (locate_of_le hi)

theorem put_of_le (hi : p.length ≤ i) (x : Item t) :
    p.put i x m = .error (.index i p.length) m :=
  bind_of_error (locate_of_le hi)

/-- The memory after items are put at the indices from `start` on, one after another. -/
def putAll (p : Endpoint t) (start : Nat) (xs : List (Item t)) (m : Memory t) : Memory t :=
  m.mergeAll p.fold ((p.view.cells start xs.length).zip xs)

@[simp] theorem putAll_nil (p : Endpoint t) (start : Nat) (m : Memory t) :
    p.putAll start [] m = m := by
  simp [putAll]

theorem putAll_append (p : Endpoint t) (start : Nat) (xs ys : List (Item t)) (m : Memory t) :
    p.putAll start (xs ++ ys) m = p.putAll (start + xs.length) ys (p.putAll start xs m) := by
  rw [putAll, List.length_append, View.cells_add, List.zip_append (by simp),
    Memory.mergeAll_append]
  rfl

theorem alike_putAll (p : Endpoint t) (start : Nat) (xs : List (Item t)) (m : Memory t) :
    (p.putAll start xs m).Alike m :=
  Memory.alike_mergeAll p.fold m _

theorem cell?_putAll {xs : List (Item t)} (laid : p.view.Laid m)
    (hn : start + xs.length ≤ p.length) {k : Nat} {x : Item t} (hx : xs[k]? = some x) :
    ∃ y, m.cell? (p.view.location (start + k)) = some y ∧
      (p.putAll start xs m).cell? (p.view.location (start + k)) = some (merged p.fold y x) := by
  obtain ⟨hk, hx'⟩ := List.getElem?_eq_some_iff.mp hx
  have below : start + k < p.length := by omega
  obtain ⟨y, hy⟩ := Memory.mem_iff.mp (laid.location_mem below)
  have listed : (p.view.location (start + k), x) ∈ (p.view.cells start xs.length).zip xs := by
    apply List.mem_of_getElem? (i := k)
    simp [View.cells, hk, hx']
  have apart : (((p.view.cells start xs.length).zip xs).map Prod.fst).Nodup := by
    rw [List.map_fst_zip (by simp)]
    exact View.nodup_cells laid.fits hn
  refine ⟨y, hy, ?_⟩
  rw [putAll, Memory.cell?_mergeAll p.fold m apart listed, hy]
  rfl

theorem cell?_putAll_of_ne {xs : List (Item t)} (hn : start + xs.length ≤ p.length) {l : Location}
    (other : ∀ k < xs.length, p.view.locate? (start + k) ≠ some l) :
    (p.putAll start xs m).cell? l = m.cell? l := by
  apply Memory.cell?_mergeAll_of_ne
  intro w hw here
  obtain ⟨i, hi, hl⟩ := List.mem_map.mp (List.of_mem_zip hw).1
  rw [List.mem_range'_1] at hi
  have index : start + (i - start) = i := by omega
  apply other (i - start) (by omega)
  rw [index, here, ← hl]
  exact View.locate?_eq (Nat.lt_of_lt_of_le hi.2 hn)

/-- An item that is put is read back by its index, folded with the one read there before. -/
theorem get_putAll {xs : List (Item t)} (laid : p.view.Laid m)
    (hn : start + xs.length ≤ p.length) {k : Nat} {x : Item t} (hx : xs[k]? = some x) :
    ∃ y, p.get (start + k) m = .ok y m ∧
      p.get (start + k) (p.putAll start xs m) =
        .ok (merged p.fold y x) (p.putAll start xs m) := by
  obtain ⟨y, old, new⟩ := cell?_putAll laid hn hx
  have hk := (List.getElem?_eq_some_iff.mp hx).1
  have below : start + k < p.length := by omega
  exact ⟨y, get_eq below old, get_eq below new⟩

/-- Where folding takes no account of order, two deliveries to one view may change places. -/
theorem putAll_comm (swap : ∀ z x y : Item t,
      merged p.fold (merged p.fold z x) y = merged p.fold (merged p.fold z y) x)
    (first second : Nat) (xs ys : List (Item t)) (m : Memory t) :
    p.putAll second ys (p.putAll first xs m) = p.putAll first xs (p.putAll second ys m) :=
  Memory.mergeAll_comm p.fold m swap _ _

/-- Decoded items are written to the cells they are for, one item for each cell. -/
theorem writeBytes_eq {ls : List Location} (present : ∀ l ∈ ls, l ∈ m) (p : Endpoint t)
    (window : List UInt8) :
    writeBytes p.write ls window m = .ok (window.drop (ls.length * t.width))
      (m.mergeAll p.fold (ls.zip (decodeMany t ls.length window))) := by
  induction ls generalizing m window with
  | nil => simp only [writeBytes, List.length_nil, Nat.zero_mul, List.drop_zero]; rfl
  | cons l ls ih =>
    have shift : t.width + ls.length * t.width = (ls.length + 1) * t.width := by
      rw [Nat.succ_mul, Nat.add_comm]
    have later : ∀ k ∈ ls, k ∈ m.merge p.fold l (Item.decode t (window.take t.width)) := by
      intro k hk
      exact (Memory.alike_merge p.fold m l _).mem_iff.mpr (present k (List.mem_cons_of_mem l hk))
    unfold writeBytes
    rw [bind_of_ok (write_eq (present l List.mem_cons_self) p _), ih later, List.drop_drop, shift]
    rfl

theorem writeBytes_append (write : Location → Item t → Action t Unit) (ls ks : List Location)
    (window : List UInt8) :
    writeBytes write (ls ++ ks) window = writeBytes write ls window >>= writeBytes write ks := by
  induction ls generalizing window with
  | nil => rfl
  | cons l ls ih =>
    simp only [List.cons_append, writeBytes, ih, bind_assoc]

theorem checkStart_eq (hs : start ≤ p.length) : p.checkStart start m = .ok () m := by
  rw [checkStart, if_pos hs]
  rfl

theorem checkStart_of_lt (hs : p.length < start) :
    p.checkStart start m = .error (.start start p.length) m := by
  rw [checkStart, if_neg (Nat.not_le.mpr hs)]
  rfl

theorem unpack_of_lt (hs : p.length < start) (most : Nat) (window : List UInt8) :
    p.unpack start most window m = .error (.start start p.length) m :=
  bind_of_error (checkStart_of_lt hs)

theorem fill_eq (laid : p.view.Laid m) (x : Option (Item t)) :
    p.fill x m = .ok () (p.putAll 0 (List.replicate p.length (x.getD Item.zero)) m) := by
  have first : ∀ n ≤ p.length,
      ((List.range n).forM fun i => p.put i (x.getD Item.zero) : Action t Unit) m =
        .ok () (p.putAll 0 (List.replicate n (x.getD Item.zero)) m) := by
    intro n hn
    induction n with
    | zero => rw [List.range_zero, List.replicate_zero, putAll_nil]; rfl
    | succ n ih =>
      let before := p.putAll 0 (List.replicate n (x.getD Item.zero)) m
      have laid' : p.view.Laid before := laid.alike (p.alike_putAll 0 _ m)
      have last : p.put n (x.getD Item.zero) before = _ := put_eq laid' hn _
      rw [List.range_succ, List.forM_eq_forM, List.forM_append, ← List.forM_eq_forM,
        bind_of_ok (ih (Nat.le_of_lt hn)), List.replicate_succ', putAll_append,
        List.length_replicate, Nat.zero_add]
      exact bind_of_ok last
  exact first p.length (Nat.le_refl _)

/-- Unpacking takes as many whole items as are asked for, fit in the view and are in the window. -/
theorem unpack_eq (laid : p.view.Laid m) (hs : start ≤ p.length) (most : Nat)
    (window : List UInt8) {n : Nat}
    (hn : n = min (min most (p.length - start)) (wholeItems t window.length)) :
    p.unpack start most window m = .ok ⟨n, window.drop (n * t.width)⟩
      (p.putAll start (decodeMany t n window) m) := by
  unfold unpack
  rw [bind_of_ok (checkStart_eq hs)]
  simp only [← hn]
  by_cases zero : n = 0
  · subst n
    rw [if_pos zero, zero, Nat.zero_mul, List.drop_zero, decodeMany, putAll_nil]
    rfl
  · rw [if_neg zero]
    have fit : start + n ≤ p.view.length := by simp only [length] at hs hn; omega
    have walked : p.view.throughRuns (writeBytes p.write) (p.view.runs start n) window m =
        writeBytes p.write (p.view.cells start n) window m :=
      View.throughRuns_runs (fun _ => rfl) (writeBytes_append p.write)
        (fun ls x m present => ⟨_, _, writeBytes_eq present p x, Memory.alike_mergeAll p.fold m _⟩)
        laid (by omega) fit window
    have written := writeBytes_eq (laid.cells_mem fit) p window
    rw [View.length_cells] at written
    rw [bind_of_ok (walked.trans written), putAll, length_decodeMany]
    rfl

/-- Puts an item by the plain operations of the view alone. Where the endpoint folds, the stored
item is read by its index, and what comes of the two is put in its place. -/
def putPlainly (p : Endpoint t) (i : Nat) (x : Item t) : Action t Unit := do
  let plain : Endpoint t := ⟨p.view, none⟩
  match p.fold with
  | none => plain.put i x
  | some f => plain.put i (f.apply (← plain.get i) x)

theorem putPlainly_eq (laid : p.view.Laid m) (hi : i < p.length) (x : Item t) :
    p.putPlainly i x m = .ok () (m.merge p.fold (p.view.location i) x) := by
  obtain ⟨y, hy⟩ := Memory.mem_iff.mp (laid.location_mem hi)
  obtain ⟨v, fold⟩ := p
  have got : get ⟨v, none⟩ i m = .ok y m := get_eq hi hy
  have done (z : Item t) : put ⟨v, none⟩ i z m = .ok () (m.write (v.location i) z) := by
    have put := put_eq (p := ⟨v, none⟩) laid hi z
    rwa [Memory.merge_eq none m hy] at put
  rw [Memory.merge_eq fold m hy]
  cases fold with
  | none => exact done x
  | some f => exact (bind_of_ok got).trans (done (f.apply y x))

theorem forM_putPlainly (laid : p.view.Laid m) (item : Nat → Item t)
    (hn : start + n ≤ p.length) :
    ((List.range n).forM fun j => p.putPlainly (start + j) (item j) : Action t Unit) m =
      .ok () (p.putAll start ((List.range n).map item) m) := by
  induction n with
  | zero => rw [List.range_zero, List.map_nil, putAll_nil]; rfl
  | succ n ih =>
    have laid' := laid.alike (p.alike_putAll start ((List.range n).map item) m)
    have last := putPlainly_eq laid' (i := start + n) (by omega) (item n)
    rw [List.range_succ, List.forM_eq_forM, List.forM_append, ← List.forM_eq_forM,
      bind_of_ok (ih (by omega)), List.map_append, putAll_append, List.length_map,
      List.length_range]
    exact bind_of_ok last

/-- Unpacking takes the whole items of a window that are asked for and have an index, and leaves
what the item loop leaves: each of these items is put, or folded into the one stored before, at
its own index, and no other cell changes. -/
theorem unpack_agrees_with_item_loop (p : Endpoint t) (m : Memory t) (laid : p.view.Laid m)
    {start : Nat} (hs : start ≤ p.length) (most : Nat) (window : List UInt8) :
    let n := min (min most (p.length - start)) (window.length / t.width)
    let item (j : Nat) : Item t := Item.decode t ((window.drop (j * t.width)).take t.width)
    ∃ final, p.unpack start most window m = .ok ⟨n, window.drop (n * t.width)⟩ final ∧
      ((List.range n).forM fun j => p.putPlainly (start + j) (item j) : Action t Unit) m =
        .ok () final ∧
      (∀ j < n, ∃ y, p.get (start + j) m = .ok y m ∧
        p.get (start + j) final = .ok (merged p.fold y (item j)) final) ∧
      final.Alike m ∧
      ∀ l, (∀ j < n, p.view.locate? (start + j) ≠ some l) → final.cell? l = m.cell? l := by
  intro n item
  have items : decodeMany t n window = (List.range n).map item := decodeMany_eq_map t n window
  have size : ((List.range n).map item).length = n := by simp
  have hn : start + n ≤ p.length := by omega
  have fit : start + ((List.range n).map item).length ≤ p.length := by rwa [size]
  have unpacked := unpack_eq laid hs most window (n := n) rfl
  rw [items] at unpacked
  refine ⟨p.putAll start ((List.range n).map item) m, unpacked, forM_putPlainly laid item hn, ?_,
    p.alike_putAll start _ m, ?_⟩
  · intro j hj
    exact get_putAll laid fit (by simp [hj])
  · intro l other
    apply cell?_putAll_of_ne fit
    rwa [size]

/-- Items are added to every second column of two rows of a square. The two that are asked for go
to the end of one row and the start of the next, and the column between them stays. -/
theorem unpack_agrees_with_item_loop_across_rows :
    let square : Grid := ⟨⟨0, 9⟩, 3, 3, rfl⟩
    let m : Memory .int16 := ⟨#[#[1, 2, 3, 4, 5, 6, 7, 8, 9]]⟩
    let p : Endpoint .int16 :=
      ⟨.block square ⟨1, 1, 2, by decide, by decide⟩ ⟨0, 2, 2, by decide, by decide⟩,
        some ⟨"sum", (· + ·)⟩⟩
    p.view.Laid m ∧ 1 ≤ p.length ∧
      ∃ final, p.unpack 1 2 [0, 10, 0, 20, 0, 30, 9] m = .ok ⟨2, [0, 30, 9]⟩ final ∧
        p.get 1 final = .ok 16 final ∧ p.get 2 final = .ok 27 final ∧
        final.cell? ⟨0, 4⟩ = some 5 ∧ final.cell? ⟨0, 8⟩ = some 9 := by
  intro square m p
  have laid : p.view.Laid m := by decide
  obtain ⟨final, unpacked, -, taken, -, others⟩ :=
    unpack_agrees_with_item_loop p m laid (by decide : 1 ≤ p.length) 2 [0, 10, 0, 20, 0, 30, 9]
  obtain ⟨y, hy, first⟩ := taken 0 (by decide)
  obtain ⟨z, hz, second⟩ := taken 1 (by decide)
  injection hy with hy
  injection hz with hz
  subst hy hz
  have gap := others ⟨0, 4⟩ (by decide)
  have later := others ⟨0, 8⟩ (by decide)
  exact ⟨laid, by decide, final, unpacked, first, second, gap, later⟩

end Endpoint

end WireView
