import WireView.Proofs.Receiving

/-!
# Streams cut into windows

A receiver fed with windows ends where the bytes of all of them together take it: the same items
are put, the same bytes are held back, and what is left in the windows is what follows the last
announced item.
-/

namespace WireView

variable {t : ItemKind}

/-- What is left in each window when the first `n` bytes of all of them are taken. -/
def unread : Nat → List (List UInt8) → List (List UInt8)
  | _, [] => []
  | n, window :: windows => window.drop n :: unread (n - window.length) windows

/-- With enough bytes taken, nothing is left in any window. -/
theorem unread_of_le {windows : List (List UInt8)} {n : Nat} (all : windows.flatten.length ≤ n) :
    unread n windows = windows.map fun _ => [] := by
  induction windows generalizing n with
  | nil => rfl
  | cons window windows ih =>
    rw [List.flatten_cons, List.length_append] at all
    rw [unread, List.map_cons, List.drop_of_length_le (by omega), ih (by omega)]

theorem flatten_unread (n : Nat) (windows : List (List UInt8)) :
    (unread n windows).flatten = windows.flatten.drop n := by
  induction windows generalizing n with
  | nil => rw [unread, List.flatten_nil, List.drop_nil]
  | cons window windows ih =>
    rw [unread, List.flatten_cons, ih, List.flatten_cons, List.drop_append]

namespace Receiver

variable {p : Endpoint t} {m : Memory t} {announced : Nat} {bs : List UInt8}

/-- A run over some windows takes the receiver of the bytes before them to the receiver of those
and all of theirs. -/
theorem feed_eq (laid : p.view.Laid m) (announced : Nat) (windows : List (List UInt8))
    (bs : List UInt8) :
    ∃ taken, feed p windows (p.receiverAfter announced bs) m =
        .ok (p.receiverAfter announced (bs ++ windows.flatten), taken)
          (p.deliver announced bs windows.flatten m) ∧
      (taken.map Taken.count).sum =
        arrived t announced (bs ++ windows.flatten) - arrived t announced bs ∧
      taken.map Taken.rest = unread (announced * t.width - bs.length) windows := by
  -- What carries the induction is the receiver as a function of all bytes so far.
  induction windows generalizing m bs with
  | nil =>
    refine ⟨[], ?_, ?_, rfl⟩
    · rw [List.flatten_nil, List.append_nil, Endpoint.deliver_empty]
      rfl
    · rw [List.flatten_nil, List.append_nil, Nat.sub_self]
      rfl
  | cons window windows ih =>
    have first := accept_eq laid announced bs window
    obtain ⟨taken, run, count, rest⟩ :=
      ih (laid.alike (p.alike_deliver announced bs window m)) (bs ++ window)
    have once := arrived_le_append t announced bs window
    have twice := arrived_le_append t announced (bs ++ window) windows.flatten
    rw [List.flatten_cons, ← List.append_assoc]
    refine ⟨yield t announced bs window :: taken, ?_, ?_, ?_⟩
    · rw [feed, bind_of_ok first, ← Endpoint.deliver_append]
      exact bind_of_ok run
    · simp only [List.map_cons, List.sum_cons, count, yield]
      omega
    · rw [List.map_cons, rest, yield, unread, List.length_append, Nat.sub_sub]

theorem length_held (p : Endpoint t) (announced : Nat) (bs : List UInt8) :
    (p.receiverAfter announced bs).held.length =
      if arrived t announced bs < announced then bs.length % t.width else 0 := by
  by_cases more : bs.length < announced * t.width
  · obtain ⟨count, less⟩ := arrived_of_lt t more
    rw [receiverAfter_of_lt more, if_pos less, List.length_drop, count, wholeItems,
      Nat.mod_eq_sub_div_mul]
  · have done : announced * t.width ≤ bs.length := by omega
    have all := arrived_of_le t done
    rw [Endpoint.receiverAfter, all, if_neg (Nat.lt_irrefl _), List.drop_take, Nat.sub_self,
      List.take_zero, List.length_nil]

/-- With items still to come every byte is taken, and otherwise just those announced. -/
theorem unread_stream (t : ItemKind) (announced : Nat) (windows : List (List UInt8)) :
    unread (announced * t.width) windows =
      unread (if arrived t announced windows.flatten < announced then windows.flatten.length
        else announced * t.width) windows := by
  by_cases less : arrived t announced windows.flatten < announced
  · have more : windows.flatten.length < announced * t.width := by
      by_cases done : announced * t.width ≤ windows.flatten.length
      · rw [arrived_of_le t done] at less
        omega
      · omega
    rw [if_pos less, unread_of_le (Nat.le_of_lt more), unread_of_le (Nat.le_refl _)]
  · rw [if_neg less]

/-- What a stream does to a receiver and to memory does not depend on how it is cut: the items that
came whole are put at the first indices, each once, as far as the view reaches. -/
theorem feed_any_cut (p : Endpoint t) (m : Memory t) (laid : p.view.Laid m) (announced : Nat)
    (stream : List UInt8) :
    let k := min announced (stream.length / t.width)
    let n := if k < announced then stream.length else announced * t.width
    ∃ r final, final.Alike m ∧
      (∀ i < min k p.length, ∃ l y, p.view.locate? i = some l ∧ m.cell? l = some y ∧
        final.cell? l =
          some (merged p.fold y (Item.decode t ((stream.drop (i * t.width)).take t.width)))) ∧
      (∀ l, (∀ i < min k p.length, p.view.locate? i ≠ some l) → final.cell? l = m.cell? l) ∧
      r.next = k ∧ (r.IsDone ↔ k = announced) ∧
      r.held.length = (if k < announced then stream.length % t.width else 0) ∧
      ∀ windows : List (List UInt8), windows.flatten = stream →
        ∃ taken, feed p windows (p.receiver announced) m = .ok (r, taken) final ∧
          (taken.map Taken.count).sum = k ∧
          taken.map Taken.rest = unread n windows ∧
          (taken.map Taken.rest).flatten = stream.drop n := by
  intro k n
  have le : k ≤ announced := Nat.min_le_left _ _
  refine ⟨p.receiverAfter announced stream, p.deliver announced [] stream m,
    p.alike_deliver announced [] stream m, ?_, ?_, rfl, ?_, length_held p announced stream, ?_⟩
  · intro i hi
    obtain ⟨y, old, new⟩ := Endpoint.cell?_deliver laid hi
    have below : i < p.view.length := Nat.lt_of_lt_of_le hi (Nat.min_le_right _ _)
    exact ⟨p.view.location i, y, View.locate?_eq below, old, new⟩
  · intro l other
    exact Endpoint.cell?_deliver_of_ne other
  · constructor
    · intro done
      exact Nat.le_antisymm le done
    · intro all
      exact Nat.le_of_eq all.symm
  · rintro windows rfl
    obtain ⟨taken, run, count, rest⟩ := feed_eq laid announced windows []
    rw [Endpoint.receiverAfter_nil] at run
    rw [arrived_nil, List.nil_append, Nat.sub_zero] at count
    have left : taken.map Taken.rest = unread n windows :=
      rest.trans (unread_stream t announced windows)
    refine ⟨taken, run, count, left, ?_⟩
    rw [left, flatten_unread]

/-- The first and the third of five cells, into which items are added. -/
def addedItems : Endpoint .int16 :=
  ⟨.array ⟨0, 5⟩ ⟨0, 2, 2, Nat.two_pos, Nat.two_pos⟩, some ⟨"sum", (· + ·)⟩⟩

def fiveItems : Memory .int16 := ⟨#[#[1, 2, 3, 4, 5]]⟩

/-- Three items are announced, one more than there is room for, and each is split. The second is
added to the third cell, and the byte past the third item is left. -/
theorem feed_any_cut_of_split_items :
    addedItems.view.Laid fiveItems ∧
      ∃ r taken final,
        feed addedItems [[0], [7, 0], [], [2, 0], [3, 9]] (addedItems.receiver 3) fiveItems =
          .ok (r, taken) final ∧
        final.cell? ⟨0, 2⟩ = some 5 ∧ final.cell? ⟨0, 4⟩ = some 5 ∧ r.IsDone ∧
        taken.map Taken.rest = [[], [], [], [], [9]] := by
  have laid : addedItems.view.Laid fiveItems := by decide
  obtain ⟨r, final, -, cells, others, -, done, -, runs⟩ :=
    feed_any_cut addedItems fiveItems laid 3 [0, 7, 0, 2, 0, 3, 9]
  obtain ⟨taken, run, -, rest, -⟩ := runs [[0], [7, 0], [], [2, 0], [3, 9]] rfl
  obtain ⟨l, y, hl, hy, third⟩ := cells 1 (by decide)
  obtain rfl : ⟨0, 2⟩ = l := Option.some.inj hl
  obtain rfl : 3 = y := Option.some.inj hy
  have fifth := others ⟨0, 4⟩ (by decide)
  exact ⟨laid, r, taken, final, run, third, fifth, done.mpr (by decide), rest⟩

end Receiver

end WireView
