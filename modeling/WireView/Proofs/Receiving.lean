import WireView.Transfer
import WireView.Proofs.Unpacking

/-!
# Receiving a stream

What a receiver knows and what it has left in memory are functions of the bytes that came so far,
and not of the windows they came in. One call takes the receiver of some bytes to the receiver of
those and the bytes of its window; so a run of calls depends on the whole stream only.
-/

namespace WireView

variable {t : ItemKind}

namespace Receiver

variable {p : Endpoint t} {m : Memory t} {r : Receiver}

theorem takeStored_eq (laid : p.view.Laid m) (same : r.length = p.length) (window : List UInt8)
    {n : Nat} (hn : n = min (min r.announced r.length - r.next) (wholeItems t window.length)) :
    r.takeStored p window m =
      .ok ({ r with next := r.next + n }, ⟨n, window.drop (n * t.width)⟩)
        (p.putAll r.next (decodeMany t n window) m) := by
  by_cases room : r.next < r.length
  · have start : r.next ≤ p.length := by omega
    have count : n = min (min (min r.announced r.length - r.next) (p.length - r.next))
        (wholeItems t window.length) := by omega
    have taken := Endpoint.unpack_eq laid start (min r.announced r.length - r.next) window count
    rw [takeStored, if_pos room]
    exact bind_of_ok taken
  · have none : n = 0 := by omega
    rw [takeStored, if_neg room, none, Nat.zero_mul, List.drop_zero, decodeMany,
      Endpoint.putAll_nil]
    rfl

theorem dropSurplus_eq (r : Receiver) (window : List UInt8) {n : Nat}
    (hn : n = min (if r.length ≤ r.next then r.announced - r.next else 0)
      (wholeItems t window.length)) :
    r.dropSurplus t window = ({ r with next := r.next + n }, ⟨n, window.drop (n * t.width)⟩) := by
  by_cases full : r.length ≤ r.next ∧ r.next < r.announced
  · rw [if_pos full.1] at hn
    rw [dropSurplus, if_pos full, dropItems, hn]
  · have none : n = 0 := by
      split at hn <;> omega
    rw [dropSurplus, if_neg full, none, Nat.zero_mul, List.drop_zero]
    rfl

/-- The whole items of a window that belong to the transfer are all taken, and as many of them are
put as the view has room for. -/
theorem takeWhole_eq (laid : p.view.Laid m) (same : r.length = p.length) (window : List UInt8)
    {n : Nat} (hn : n = min (r.announced - r.next) (wholeItems t window.length)) :
    r.takeWhole p window m =
      .ok ({ r with next := r.next + n }, ⟨n, window.drop (n * t.width)⟩)
        (p.putAll r.next (decodeMany t (min n (p.length - r.next)) window) m) := by
  have stored : min n (p.length - r.next) =
      min (min r.announced r.length - r.next) (wholeItems t window.length) := by omega
  have taken := takeStored_eq laid same window stored
  generalize min n (p.length - r.next) = k at stored taken
  have dropped := dropSurplus_eq (t := t) { r with next := r.next + k }
    (window.drop (k * t.width)) (n := n - k) (by
      rw [wholeItems_drop]
      split <;> simp_all only <;> omega)
  have total : k + (n - k) = n := by omega
  rw [takeWhole, bind_of_ok taken]
  simp only [dropped, List.drop_drop, ← Nat.add_mul, Nat.add_assoc, total]
  rfl

/-- A window is taken up to the last announced byte. What comes before it and is no whole item is
held back. -/
theorem takeWindow_eq (laid : p.view.Laid m) (same : r.length = p.length) (none : r.held = [])
    (window : List UInt8) {n : Nat}
    (hn : n = min (r.announced - r.next) (wholeItems t window.length)) :
    r.takeWindow p window m =
      .ok ({ r with
              next := r.next + n
              held := (window.take ((r.announced - r.next) * t.width)).drop (n * t.width) },
          ⟨n, window.drop ((r.announced - r.next) * t.width)⟩)
        (p.putAll r.next (decodeMany t (min n (p.length - r.next)) window) m) := by
  rw [takeWindow, bind_of_ok (takeWhole_eq laid same window hn)]
  obtain ⟨length, announced, next, held⟩ := r
  obtain rfl : held = [] := none
  simp only at hn ⊢
  by_cases done : announced ≤ next + n
  · have count : announced - next = n := by omega
    have past : ¬(¬IsDone ⟨length, announced, next + n, []⟩ ∧
        0 < (window.drop (n * t.width)).length ∧ (window.drop (n * t.width)).length < t.width) :=
      fun h => h.1 done
    rw [holdTail, if_neg past, count, List.drop_take, Nat.sub_self, List.take_zero]
    rfl
  · have count : n = wholeItems t window.length := by omega
    have short : window.length < (n + 1) * t.width := count ▸ lt_wholeItems_add_one_mul t _
    have below : (n + 1) * t.width ≤ (announced - next) * t.width :=
      Nat.mul_le_mul_right _ (by omega)
    rw [List.take_of_length_le (by omega),
      List.drop_of_length_le (Nat.le_trans (Nat.le_of_lt short) below)]
    have tail := length_drop_wholeItems_lt t window
    rw [← count] at tail
    by_cases some : 0 < (window.drop (n * t.width)).length
    · rw [holdTail, if_pos ⟨done, some, tail⟩]
      rfl
    · have empty : window.drop (n * t.width) = [] := List.eq_nil_of_length_eq_zero (by omega)
      rw [holdTail, if_neg (fun h => some h.2.1), empty]
      rfl

end Receiver

/-- How many of the announced items have come whole. -/
def arrived (t : ItemKind) (announced : Nat) (bs : List UInt8) : Nat :=
  min announced (wholeItems t bs.length)

theorem arrived_le (t : ItemKind) (announced : Nat) (bs : List UInt8) :
    arrived t announced bs ≤ announced :=
  Nat.min_le_left _ _

@[simp] theorem arrived_nil (t : ItemKind) (announced : Nat) : arrived t announced [] = 0 := by
  simp [arrived, wholeItems]

theorem arrived_mul_le (t : ItemKind) (announced : Nat) (bs : List UInt8) :
    arrived t announced bs * t.width ≤ bs.length :=
  le_wholeItems.mp (Nat.min_le_right _ _)

theorem arrived_le_append (t : ItemKind) (announced : Nat) (bs cs : List UInt8) :
    arrived t announced bs ≤ arrived t announced (bs ++ cs) := by
  have more : wholeItems t bs.length ≤ wholeItems t (bs ++ cs).length := by
    rw [le_wholeItems, List.length_append]
    have := wholeItems_mul_le t bs.length
    omega
  unfold arrived
  omega

namespace Endpoint

variable {p : Endpoint t} {m : Memory t} {announced : Nat} {bs : List UInt8}

/-- The receiver that some bytes have left. -/
def receiverAfter (p : Endpoint t) (announced : Nat) (bs : List UInt8) : Receiver where
  length := p.length
  announced := announced
  next := arrived t announced bs
  held := (bs.take (announced * t.width)).drop (arrived t announced bs * t.width)

theorem receiverAfter_nil (p : Endpoint t) (announced : Nat) :
    p.receiverAfter announced [] = p.receiver announced := by
  simp [receiverAfter, receiver]

def landed (p : Endpoint t) (announced : Nat) (bs : List UInt8) : List (Item t) :=
  decodeMany t (min (arrived t announced bs) p.length) bs

/-- The items that come to the view with the bytes of one more window. -/
def fresh (p : Endpoint t) (announced : Nat) (bs window : List UInt8) : List (Item t) :=
  (p.landed announced (bs ++ window)).drop (p.landed announced bs).length

def deliver (p : Endpoint t) (announced : Nat) (bs window : List UInt8) (m : Memory t) :
    Memory t :=
  p.putAll (p.landed announced bs).length (p.fresh announced bs window) m

@[simp] theorem length_landed (p : Endpoint t) (announced : Nat) (bs : List UInt8) :
    (p.landed announced bs).length = min (arrived t announced bs) p.length :=
  length_decodeMany _ _ _

theorem landed_append (p : Endpoint t) (announced : Nat) (bs window : List UInt8) :
    p.landed announced (bs ++ window) = p.landed announced bs ++ p.fresh announced bs window := by
  have less : min (arrived t announced bs) p.length ≤
      min (arrived t announced (bs ++ window)) p.length := by
    have := arrived_le_append t announced bs window
    omega
  have enough : min (arrived t announced bs) p.length * t.width ≤ bs.length :=
    Nat.le_trans (Nat.mul_le_mul_right _ (Nat.min_le_left _ _)) (arrived_mul_le t announced bs)
  have old : (p.landed announced (bs ++ window)).take (p.landed announced bs).length =
      p.landed announced bs := by
    rw [length_landed, landed, take_decodeMany, Nat.min_eq_left less, decodeMany_append t _ enough]
    rfl
  have parts := List.take_append_drop (p.landed announced bs).length
    (p.landed announced (bs ++ window))
  rw [old] at parts
  exact parts.symm

theorem fresh_append (p : Endpoint t) (announced : Nat) (bs window more : List UInt8) :
    p.fresh announced bs (window ++ more) =
      p.fresh announced bs window ++ p.fresh announced (bs ++ window) more := by
  have whole : p.landed announced bs ++ p.fresh announced bs (window ++ more) =
      p.landed announced bs ++
        (p.fresh announced bs window ++ p.fresh announced (bs ++ window) more) := by
    rw [← landed_append, ← List.append_assoc (p.landed announced bs), ← landed_append,
      ← landed_append, List.append_assoc]
  exact List.append_cancel_left whole

theorem deliver_append (p : Endpoint t) (announced : Nat) (bs window more : List UInt8)
    (m : Memory t) :
    p.deliver announced (bs ++ window) more (p.deliver announced bs window m) =
      p.deliver announced bs (window ++ more) m := by
  rw [deliver, deliver, deliver, fresh_append, putAll_append, landed_append, List.length_append]

theorem deliver_empty (p : Endpoint t) (announced : Nat) (bs : List UInt8) (m : Memory t) :
    p.deliver announced bs [] m = m := by
  rw [deliver, fresh, List.append_nil, List.drop_length, putAll_nil]

theorem alike_deliver (p : Endpoint t) (announced : Nat) (bs window : List UInt8)
    (m : Memory t) : (p.deliver announced bs window m).Alike m :=
  p.alike_putAll _ _ m

/-- Past the end of the view nothing is put, so it makes no difference from where. -/
theorem deliver_eq (p : Endpoint t) (announced : Nat) (bs window : List UInt8) (m : Memory t) :
    p.deliver announced bs window m =
      p.putAll (arrived t announced bs)
        (decodeMany t
          (min (arrived t announced (bs ++ window) - arrived t announced bs)
            (p.length - arrived t announced bs))
          ((bs ++ window).drop (arrived t announced bs * t.width))) m := by
  rw [deliver, fresh, length_landed, landed, drop_decodeMany]
  by_cases room : arrived t announced bs ≤ p.length
  · have count : min (arrived t announced (bs ++ window)) p.length - arrived t announced bs =
        min (arrived t announced (bs ++ window) - arrived t announced bs)
          (p.length - arrived t announced bs) := by omega
    rw [Nat.min_eq_left room, count]
  · have more := arrived_le_append t announced bs window
    have full : min (arrived t announced (bs ++ window)) p.length = p.length := by omega
    have none : p.length - arrived t announced bs = 0 := by omega
    rw [Nat.min_eq_right (by omega), full, Nat.sub_self, none, Nat.min_zero, decodeMany,
      decodeMany, putAll_nil, putAll_nil]

theorem getElem?_landed {i : Nat} (hi : i < min (arrived t announced bs) p.length) :
    (p.landed announced bs)[i]? =
      some (Item.decode t ((bs.drop (i * t.width)).take t.width)) := by
  have split : min (arrived t announced bs) p.length =
      i + (min (arrived t announced bs) p.length - (i + 1) + 1) := by omega
  rw [landed, split, decodeMany_add, List.getElem?_append_right (by simp), length_decodeMany,
    Nat.sub_self, decodeMany]
  rfl

/-- From the start of a stream on, the items that have landed are put at the first indices. -/
theorem deliver_start (p : Endpoint t) (announced : Nat) (bs : List UInt8) (m : Memory t) :
    p.deliver announced [] bs m = p.putAll 0 (p.landed announced bs) m := by
  have empty : p.landed announced [] = [] := by
    apply List.eq_nil_of_length_eq_zero
    rw [length_landed, arrived_nil, Nat.zero_min]
  rw [deliver, fresh, empty]
  rfl

theorem landed_le (p : Endpoint t) (announced : Nat) (bs : List UInt8) :
    0 + (p.landed announced bs).length ≤ p.length := by
  rw [length_landed, Nat.zero_add]
  exact Nat.min_le_right _ _

theorem cell?_deliver (laid : p.view.Laid m) {i : Nat}
    (hi : i < min (arrived t announced bs) p.length) :
    ∃ y, m.cell? (p.view.location i) = some y ∧
      (p.deliver announced [] bs m).cell? (p.view.location i) =
        some (merged p.fold y (Item.decode t ((bs.drop (i * t.width)).take t.width))) := by
  obtain ⟨y, old, new⟩ := cell?_putAll laid (p.landed_le announced bs) (getElem?_landed hi)
  rw [Nat.zero_add] at old new
  exact ⟨y, old, by rwa [deliver_start]⟩

theorem cell?_deliver_of_ne {l : Location}
    (other : ∀ i < min (arrived t announced bs) p.length, p.view.locate? i ≠ some l) :
    (p.deliver announced [] bs m).cell? l = m.cell? l := by
  rw [deliver_start]
  apply cell?_putAll_of_ne (p.landed_le announced bs)
  intro i hi
  rw [length_landed] at hi
  rw [Nat.zero_add]
  exact other i hi

end Endpoint

theorem arrived_of_le (t : ItemKind) {announced : Nat} {bs : List UInt8}
    (done : announced * t.width ≤ bs.length) : arrived t announced bs = announced :=
  Nat.min_eq_left (le_wholeItems.mpr done)

theorem arrived_of_lt (t : ItemKind) {announced : Nat} {bs : List UInt8}
    (more : bs.length < announced * t.width) :
    arrived t announced bs = wholeItems t bs.length ∧ arrived t announced bs < announced := by
  have less : ¬announced ≤ wholeItems t bs.length := by
    rw [le_wholeItems]
    omega
  unfold arrived
  omega

namespace Receiver

variable {p : Endpoint t} {m : Memory t} {announced : Nat} {bs : List UInt8}

/-- What one more window yields: the items that it brings or completes, and the bytes past the
last one announced. -/
def yield (t : ItemKind) (announced : Nat) (bs window : List UInt8) : Taken :=
  ⟨arrived t announced (bs ++ window) - arrived t announced bs,
    window.drop (announced * t.width - bs.length)⟩

/-- With nothing held back either all has come, or what has come is whole items. -/
theorem whole_of_held (none : (p.receiverAfter announced bs).held = []) :
    announced * t.width ≤ bs.length ∨ bs.length = arrived t announced bs * t.width := by
  by_cases done : announced * t.width ≤ bs.length
  · exact Or.inl done
  · rw [Endpoint.receiverAfter, List.take_of_length_le (by omega), List.drop_eq_nil_iff] at none
    exact Or.inr (Nat.le_antisymm none (arrived_mul_le t announced bs))

section whole

variable
  (whole : announced * t.width ≤ bs.length ∨ bs.length = arrived t announced bs * t.width)

include whole

theorem bytes_to_come :
    announced * t.width - bs.length = (announced - arrived t announced bs) * t.width := by
  rcases whole with done | whole
  · rw [arrived_of_le t done, Nat.sub_self, Nat.zero_mul]
    omega
  · rw [Nat.sub_mul, ← whole]

theorem arrived_append (window : List UInt8) :
    arrived t announced (bs ++ window) = arrived t announced bs +
      min (announced - arrived t announced bs) (wholeItems t window.length) := by
  rcases whole with done | whole
  · have still : announced * t.width ≤ (bs ++ window).length := by
      rw [List.length_append]
      omega
    rw [arrived_of_le t done, arrived_of_le t still]
    omega
  · have count : wholeItems t (bs ++ window).length =
        wholeItems t window.length + arrived t announced bs := by
      rw [List.length_append, whole, Nat.add_comm]
      exact Nat.add_mul_div_right _ _ t.width_pos
    have le := arrived_le t announced bs
    rw [arrived, count]
    omega

/-- The bytes held back are then those of the window only. -/
theorem held_append (p : Endpoint t) (window : List UInt8) :
    (p.receiverAfter announced (bs ++ window)).held =
      (window.take ((announced - arrived t announced bs) * t.width)).drop
        (min (announced - arrived t announced bs) (wholeItems t window.length) * t.width) := by
  have count := arrived_append whole window
  have bytes := bytes_to_come whole
  change ((bs ++ window).take (announced * t.width)).drop
    (arrived t announced (bs ++ window) * t.width) = _
  rcases whole with done | whole
  · have all : ((bs ++ window).take (announced * t.width)).length ≤
        arrived t announced (bs ++ window) * t.width := by
      rw [count, arrived_of_le t done, List.length_take]
      exact Nat.le_trans (Nat.min_le_left _ _) (Nat.mul_le_mul_right _ (Nat.le_add_right _ _))
    rw [List.drop_of_length_le all, arrived_of_le t done, Nat.sub_self, Nat.zero_mul,
      List.take_zero, List.drop_nil]
  · have within : bs.length ≤ announced * t.width := by
      rw [whole]
      exact Nat.mul_le_mul_right _ (arrived_le t announced bs)
    rw [List.take_append, List.take_of_length_le within, bytes, count, Nat.add_mul, ← whole,
      List.drop_append, List.drop_of_length_le (Nat.le_add_right _ _), List.nil_append,
      Nat.add_sub_cancel_left]

theorem deliver_of_whole (p : Endpoint t) (window : List UInt8) (m : Memory t) :
    p.deliver announced bs window m =
      p.putAll (arrived t announced bs)
        (decodeMany t
          (min (min (announced - arrived t announced bs) (wholeItems t window.length))
            (p.length - arrived t announced bs))
          window) m := by
  rw [Endpoint.deliver_eq, arrived_append whole, Nat.add_sub_cancel_left]
  rcases whole with done | whole
  · rw [arrived_of_le t done, Nat.sub_self, Nat.zero_min, Nat.zero_min, decodeMany, decodeMany]
  · rw [← whole, List.drop_left]

end whole

theorem takeWindow_after (laid : p.view.Laid m)
    (none : (p.receiverAfter announced bs).held = []) (window : List UInt8) :
    (p.receiverAfter announced bs).takeWindow p window m =
      .ok (p.receiverAfter announced (bs ++ window), yield t announced bs window)
        (p.deliver announced bs window m) := by
  have whole := whole_of_held none
  have after : p.receiverAfter announced (bs ++ window) =
      ⟨p.length, announced, arrived t announced (bs ++ window),
        (p.receiverAfter announced (bs ++ window)).held⟩ := rfl
  have taken := takeWindow_eq (r := p.receiverAfter announced bs) laid rfl none window rfl
  rw [taken, after, held_append whole, deliver_of_whole whole, yield, arrived_append whole,
    Nat.add_sub_cancel_left, bytes_to_come whole]
  rfl

theorem lt_of_held (part : (p.receiverAfter announced bs).held ≠ []) :
    bs.length < announced * t.width := by
  by_cases more : bs.length < announced * t.width
  · exact more
  · have done : announced * t.width ≤ bs.length := by omega
    refine absurd (List.drop_of_length_le ?_) part
    rw [arrived_of_le t done, List.length_take]
    exact Nat.min_le_left _ _

section more

variable (more : bs.length < announced * t.width)

include more

theorem receiverAfter_of_lt (p : Endpoint t) :
    p.receiverAfter announced bs = ⟨p.length, announced, arrived t announced bs,
      bs.drop (arrived t announced bs * t.width)⟩ := by
  rw [Endpoint.receiverAfter, List.take_of_length_le (Nat.le_of_lt more)]

/-- The bytes held back are the last ones, and fewer than an item has. -/
theorem length_split (p : Endpoint t) :
    bs.length = arrived t announced bs * t.width + (p.receiverAfter announced bs).held.length ∧
      (p.receiverAfter announced bs).held.length < t.width ∧
      arrived t announced bs * t.width + t.width ≤ announced * t.width := by
  obtain ⟨count, less⟩ := arrived_of_lt t more
  have least := arrived_mul_le t announced bs
  have most := lt_wholeItems_add_one_mul t bs.length
  rw [← count, Nat.succ_mul] at most
  rw [receiverAfter_of_lt more, List.length_drop]
  refine ⟨by omega, by omega, ?_⟩
  rw [← Nat.succ_mul]
  exact Nat.mul_le_mul_right _ less

/-- A window that ends inside the item held back only adds to what is held. -/
theorem receiverAfter_short {window : List UInt8}
    (short : (p.receiverAfter announced bs).held.length + window.length < t.width) :
    arrived t announced (bs ++ window) = arrived t announced bs ∧
      p.receiverAfter announced (bs ++ window) =
        ⟨p.length, announced, arrived t announced bs,
          (p.receiverAfter announced bs).held ++ window⟩ := by
  obtain ⟨size, -, below⟩ := length_split more p
  have still : (bs ++ window).length < announced * t.width := by
    rw [List.length_append]
    omega
  have same : arrived t announced (bs ++ window) = arrived t announced bs := by
    rw [(arrived_of_lt t still).1]
    apply wholeItems_eq
    · rw [List.length_append]
      omega
    · rw [List.length_append, Nat.succ_mul]
      omega
  refine ⟨same, ?_⟩
  rw [receiverAfter_of_lt still, receiverAfter_of_lt more, same,
    List.drop_append_of_le_length (arrived_mul_le t announced bs)]

/-- Once the item held back is complete it counts, and nothing is held. -/
theorem receiverAfter_full {front : List UInt8}
    (fits : (p.receiverAfter announced bs).held.length + front.length = t.width) :
    arrived t announced (bs ++ front) = arrived t announced bs + 1 ∧
      p.receiverAfter announced (bs ++ front) =
        ⟨p.length, announced, arrived t announced bs + 1, []⟩ := by
  obtain ⟨split, -, -⟩ := length_split more p
  have size : (bs ++ front).length = (arrived t announced bs + 1) * t.width := by
    rw [List.length_append, Nat.succ_mul]
    omega
  have whole : wholeItems t (bs ++ front).length = arrived t announced bs + 1 := by
    rw [size]
    exact Nat.mul_div_cancel _ t.width_pos
  have count : arrived t announced (bs ++ front) = arrived t announced bs + 1 := by
    have less := (arrived_of_lt t more).2
    rw [arrived, whole]
    omega
  have none : ((bs ++ front).take (announced * t.width)).drop
      ((arrived t announced bs + 1) * t.width) = [] := by
    apply List.drop_of_length_le
    rw [← size, List.length_take]
    exact Nat.min_le_right _ _
  exact ⟨count, by rw [Endpoint.receiverAfter, count, none]⟩

/-- The bytes that complete the item held back are taken as that item. -/
theorem takeWhole_held (laid : p.view.Laid m) {front : List UInt8}
    (fits : (p.receiverAfter announced bs).held.length + front.length = t.width) :
    takeWhole { p.receiverAfter announced bs with held := [] } p
        ((p.receiverAfter announced bs).held ++ front) m =
      .ok (p.receiverAfter announced (bs ++ front), ⟨1, []⟩)
        (p.deliver announced bs front m) := by
  obtain ⟨count, after⟩ := receiverAfter_full more fits
  have less := (arrived_of_lt t more).2
  have size : ((p.receiverAfter announced bs).held ++ front).length = 1 * t.width := by
    rw [List.length_append, fits, Nat.one_mul]
  have one : 1 = min (announced - arrived t announced bs)
      (wholeItems t ((p.receiverAfter announced bs).held ++ front).length) := by
    rw [size, wholeItems, Nat.mul_div_cancel _ t.width_pos]
    omega
  have carried : (bs ++ front).drop (arrived t announced bs * t.width) =
      (p.receiverAfter announced bs).held ++ front := by
    rw [receiverAfter_of_lt more, List.drop_append_of_le_length (arrived_mul_le t announced bs)]
  have taken := takeWhole_eq (r := { p.receiverAfter announced bs with held := [] }) laid rfl
    ((p.receiverAfter announced bs).held ++ front) one
  rw [taken, after, Endpoint.deliver_eq, count, Nat.add_sub_cancel_left, carried,
    List.drop_of_length_le (Nat.le_of_eq size)]
  rfl

end more

section held

variable (part : (p.receiverAfter announced bs).held ≠ [])

include part

theorem accept_short {window : List UInt8}
    (short : (p.receiverAfter announced bs).held.length + window.length < t.width) :
    (p.receiverAfter announced bs).accept p window m =
      .ok (p.receiverAfter announced (bs ++ window), yield t announced bs window)
        (p.deliver announced bs window m) := by
  have more := lt_of_held part
  obtain ⟨count, after⟩ := receiverAfter_short more short
  obtain ⟨split, -, below⟩ := length_split more p
  have all : min (t.width - (p.receiverAfter announced bs).held.length) window.length =
      window.length := by omega
  have still : p.deliver announced bs window m = m := by
    rw [Endpoint.deliver_eq, count, Nat.sub_self, Nat.zero_min, decodeMany, Endpoint.putAll_nil]
  have carried : ((p.receiverAfter announced bs).held ++ window).length < t.width := by
    rw [List.length_append]
    exact short
  rw [accept, if_neg part]
  simp only [all, List.take_length, List.drop_length]
  rw [if_pos carried, after, yield, count, Nat.sub_self, still, List.drop_of_length_le (by omega)]
  rfl

/-- The item held back comes first, and then the rest of the window as if nothing were held. -/
theorem accept_full (laid : p.view.Laid m) {front back : List UInt8}
    (fits : (p.receiverAfter announced bs).held.length + front.length = t.width) :
    (p.receiverAfter announced bs).accept p (front ++ back) m =
      .ok (p.receiverAfter announced (bs ++ (front ++ back)), yield t announced bs (front ++ back))
        (p.deliver announced bs (front ++ back) m) := by
  have more := lt_of_held part
  obtain ⟨count, after⟩ := receiverAfter_full more fits
  obtain ⟨split, -, below⟩ := length_split more p
  have missing : min (t.width - (p.receiverAfter announced bs).held.length)
      (front ++ back).length = front.length := by
    rw [List.length_append]
    omega
  have carried : ¬((p.receiverAfter announced bs).held ++ front).length < t.width := by
    rw [List.length_append]
    omega
  have none : (p.receiverAfter announced (bs ++ front)).held = [] := by rw [after]
  have joined := takeWhole_held more laid fits
  have taken := takeWindow_after (laid.alike (p.alike_deliver announced bs front m)) none back
  have grown := arrived_le_append t announced (bs ++ front) back
  have yields : (⟨1 + (yield t announced (bs ++ front) back).count,
      (yield t announced (bs ++ front) back).rest⟩ : Taken) =
      yield t announced bs (front ++ back) := by
    have past : (front ++ back).drop (announced * t.width - bs.length) =
        back.drop (announced * t.width - (bs ++ front).length) := by
      rw [List.drop_append, List.drop_of_length_le (by omega), List.length_append, Nat.sub_sub,
        List.nil_append]
    simp only [yield, past, count, ← List.append_assoc, Taken.mk.injEq, and_true]
    omega
  rw [accept, if_neg part]
  simp only [missing, List.take_left, List.drop_left]
  rw [if_neg carried, bind_of_ok joined, bind_of_ok taken, Endpoint.deliver_append, ← yields,
    List.append_assoc]
  rfl

end held

/-- One call takes the receiver of some bytes to the receiver of those and its window. -/
theorem accept_eq (laid : p.view.Laid m) (announced : Nat) (bs window : List UInt8) :
    (p.receiverAfter announced bs).accept p window m =
      .ok (p.receiverAfter announced (bs ++ window), yield t announced bs window)
        (p.deliver announced bs window m) := by
  by_cases none : (p.receiverAfter announced bs).held = []
  · rw [accept, if_pos none]
    exact takeWindow_after laid none window
  · by_cases short : (p.receiverAfter announced bs).held.length + window.length < t.width
    · exact accept_short none short
    · have less := (length_split (lt_of_held none) p).2.1
      have parts := List.take_append_drop
        (t.width - (p.receiverAfter announced bs).held.length) window
      rw [← parts]
      apply accept_full none laid
      rw [List.length_take]
      omega

end Receiver

end WireView
