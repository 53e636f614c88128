import WireView.Proofs.Making
import WireView.Proofs.Receiving

/-!
# What a receiver takes for granted

A receiver subtracts without a look at what is left: the bytes it holds from those of an item, and
the items it has taken from those announced or those there is room for. It also relies on the bytes
of an item held back to count for one item, and on a window with less than one item left in it when
items are still to come. A watched call checks all this on the way. In every state that calls lead
to it finds nothing amiss; and these states are known exactly.
-/

namespace WireView

variable {t : ItemKind}

/-- How a watched call comes to a halt. -/
inductive Misstep where
  /-- What the view is breached for. -/
  | breach (b : Breach)
  /-- A subtraction that goes below zero. -/
  | below (x y : Nat)
  /-- The bytes of one item, taken for another number of items. -/
  | uneven (count : Nat)
  /-- Bytes of a whole item left in a window while items are still to come. -/
  | leftOver (bytes : Nat)

abbrev Watched (t : ItemKind) (β : Type) := EStateM Misstep (Memory t) β

namespace Watched

variable {β : Type} {m m' : Memory t}

/-- An action that nothing is to be watched in but its breaches. -/
def act (a : Action t β) : Watched t β := fun m =>
  match a m with
  | .ok x m => .ok x m
  | .error b m => .error (.breach b) m

/-- A difference, and a misstep where there is none. -/
def minus (x y : Nat) : Watched t Nat := if y ≤ x then pure (x - y) else throw (.below x y)

def ensure (condition : Prop) [Decidable condition] (misstep : Misstep) : Watched t Unit :=
  if condition then pure () else throw misstep

theorem act_of_ok {a : Action t β} {x : β} (h : a m = .ok x m') : act a m = .ok x m' := by
  rw [act, h]

theorem act_bind {γ : Type} (a : Action t β) (f : β → Action t γ) :
    act (a >>= f) = act a >>= fun x => act (f x) := by
  funext m
  change act (EStateM.bind a f) m = EStateM.bind (act a) (fun x => act (f x)) m
  simp only [act, EStateM.bind]
  cases a m <;> rfl

theorem minus_of_le {x y : Nat} (le : y ≤ x) : (minus x y : Watched t Nat) = pure (x - y) :=
  if_pos le

theorem ensure_of {condition : Prop} [Decidable condition] (h : condition) (misstep : Misstep)
    (m : Memory t) : ensure condition misstep m = .ok () m := by
  rw [ensure, if_pos h]
  rfl

end Watched

namespace Receiver

open Watched

def watchStored (r : Receiver) (p : Endpoint t) (window : List UInt8) :
    Watched t (Receiver × Taken) := do
  if r.next < r.length then
    let most ← minus (min r.announced r.length) r.next
    let taken ← act (p.unpack r.next most window)
    return ({ r with next := r.next + taken.count }, taken)
  return (r, ⟨0, window⟩)

def watchSurplus (r : Receiver) (window : List UInt8) : Watched t (Receiver × Taken) := do
  if r.length ≤ r.next ∧ r.next < r.announced then
    let most ← minus r.announced r.next
    let (n, rest) := dropItems t most window
    return ({ r with next := r.next + n }, ⟨n, rest⟩)
  return (r, ⟨0, window⟩)

def watchWhole (r : Receiver) (p : Endpoint t) (window : List UInt8) :
    Watched t (Receiver × Taken) := do
  let (r, stored) ← r.watchStored p window
  let (r, dropped) ← r.watchSurplus stored.rest
  return (r, ⟨stored.count + dropped.count, dropped.rest⟩)

/-- Takes the whole items of a window. While items are still to come, less than one may be left. -/
def watchWindow (r : Receiver) (p : Endpoint t) (window : List UInt8) :
    Watched t (Receiver × Taken) := do
  let (r, taken) ← r.watchWhole p window
  ensure (r.IsDone ∨ taken.rest.length < t.width) (.leftOver taken.rest.length)
  let (r, rest) := r.holdTail t taken.rest
  return (r, ⟨taken.count, rest⟩)

/-- A call of the receiver, watched. An item held back must count for one once it is complete. -/
def watch (r : Receiver) (p : Endpoint t) (window : List UInt8) :
    Watched t (Receiver × Taken) := do
  if r.held = [] then
    r.watchWindow p window
  else
    let lacking ← minus t.width r.held.length
    let missing := min lacking window.length
    let carried := r.held ++ window.take missing
    let window := window.drop missing
    if carried.length < t.width then
      return ({ r with held := carried }, ⟨0, window⟩)
    let (r, joined) ← watchWhole { r with held := [] } p carried
    ensure (joined.count = 1) (.uneven joined.count)
    let (r, taken) ← r.watchWindow p window
    return (r, ⟨joined.count + taken.count, taken.rest⟩)

/-- What holds of a receiver between two calls. -/
structure Steady (t : ItemKind) (r : Receiver) : Prop where
  next_le : r.next ≤ r.announced
  held_lt : r.held.length < t.width
  lt_of_held : r.held ≠ [] → r.next < r.announced

/-- What a call leaves behind: a steady receiver of as many items for as long a view, and nothing of
the window while items are still to come. -/
structure Settled (t : ItemKind) (r r' : Receiver) (rest : List UInt8) : Prop where
  steady : r'.Steady t
  length_eq : r'.length = r.length
  announced_eq : r'.announced = r.announced
  drained : ¬r'.IsDone → rest = []

/-- The receivers that calls lead to from a new one, through views of one length over memories that
serve them. What else is done to a memory between two calls does not matter. -/
inductive Reached (t : ItemKind) (length announced : Nat) : Receiver → Prop where
  | new : Reached t length announced ⟨length, announced, 0, []⟩
  | call {r r' : Receiver} {p : Endpoint t} {m m' : Memory t} {window : List UInt8} {taken : Taken}
      (before : Reached t length announced r) (laid : p.view.Laid m) (same : p.length = length)
      (ends : r.accept p window m = .ok (r', taken) m') : Reached t length announced r'

variable {p : Endpoint t} {m m' : Memory t} {r : Receiver} {length announced : Nat}

theorem watchStored_eq (le : r.next ≤ r.announced) (p : Endpoint t) (window : List UInt8) :
    r.watchStored p window = act (r.takeStored p window) := by
  by_cases room : r.next < r.length
  · have enough : r.next ≤ min r.announced r.length := Nat.le_min.mpr ⟨le, Nat.le_of_lt room⟩
    rw [watchStored, takeStored, if_pos room, if_pos room, minus_of_le enough, pure_bind, act_bind]
    rfl
  · rw [watchStored, takeStored, if_neg room, if_neg room]
    rfl

theorem watchSurplus_eq (r : Receiver) (window : List UInt8) :
    (r.watchSurplus window : Watched t _) = pure (r.dropSurplus t window) := by
  by_cases full : r.length ≤ r.next ∧ r.next < r.announced
  · rw [watchSurplus, dropSurplus, if_pos full, if_pos full, minus_of_le (Nat.le_of_lt full.2),
      pure_bind]
  · rw [watchSurplus, dropSurplus, if_neg full, if_neg full]

theorem watchWhole_eq (le : r.next ≤ r.announced) (p : Endpoint t) (window : List UInt8) :
    r.watchWhole p window = act (r.takeWhole p window) := by
  rw [watchWhole, takeWhole, watchStored_eq le, act_bind]
  congr 1
  funext x
  obtain ⟨r', stored⟩ := x
  simp only [watchSurplus_eq, pure_bind]
  rfl

theorem watchWhole_of_ok (le : r.next ≤ r.announced) {window : List UInt8}
    {x : Receiver × Taken} (h : r.takeWhole p window m = .ok x m') :
    r.watchWhole p window m = .ok x m' := by
  rw [watchWhole_eq le]
  exact act_of_ok h

/-- Taking the whole items of a window takes no more than are announced, and it leaves less than an
item unless no more are to come. -/
theorem takeWhole_ends (laid : p.view.Laid m) (same : r.length = p.length)
    (le : r.next ≤ r.announced) (window : List UInt8) :
    ∃ n rest m', n = min (r.announced - r.next) (wholeItems t window.length) ∧
      r.takeWhole p window m = .ok ({ r with next := r.next + n }, ⟨n, rest⟩) m' ∧
      m'.Alike m ∧ r.next + n ≤ r.announced ∧
      (r.announced ≤ r.next + n ∨ rest.length < t.width) := by
  obtain ⟨n, hn⟩ : ∃ n, n = min (r.announced - r.next) (wholeItems t window.length) := ⟨_, rfl⟩
  refine ⟨n, _, _, hn, takeWhole_eq laid same window hn, p.alike_putAll _ _ m, by omega, ?_⟩
  by_cases done : r.announced ≤ r.next + n
  · exact Or.inl done
  · have all : n = wholeItems t window.length := by omega
    have tail := length_drop_wholeItems_lt t window
    rw [← all] at tail
    exact Or.inr tail

/-- Whatever is held back of a tail is less than an item, and then nothing is left of it. -/
theorem settled_holdTail {rest : List UInt8} (none : r.held = []) (le : r.next ≤ r.announced)
    (tail : r.IsDone ∨ rest.length < t.width) :
    Settled t r (r.holdTail t rest).1 (r.holdTail t rest).2 := by
  by_cases hold : ¬r.IsDone ∧ 0 < rest.length ∧ rest.length < t.width
  · rw [holdTail, if_pos hold]
    refine ⟨⟨le, hold.2.2, ?_⟩, rfl, rfl, fun _ => rfl⟩
    exact fun _ => Nat.lt_of_not_le hold.1
  · rw [holdTail, if_neg hold]
    refine ⟨⟨le, ?_, fun part => absurd none part⟩, rfl, rfl, ?_⟩
    · rw [none]
      exact t.width_pos
    · intro more
      rcases tail with done | short
      · exact absurd done more
      · by_contra some
        exact hold ⟨more, List.length_pos_iff.mpr some, short⟩

theorem watchWindow_ends (laid : p.view.Laid m) (same : r.length = p.length)
    (none : r.held = []) (le : r.next ≤ r.announced) (window : List UInt8) :
    ∃ r' taken m', r.takeWindow p window m = .ok (r', taken) m' ∧
      r.watchWindow p window m = .ok (r', taken) m' ∧ Settled t r r' taken.rest := by
  obtain ⟨n, rest, m', -, whole, -, le', tail⟩ := takeWhole_ends laid same le window
  obtain ⟨steady, length, announced, drained⟩ :=
    settled_holdTail (r := { r with next := r.next + n }) none le' tail
  refine ⟨_, _, m', bind_of_ok whole, ?_, steady, length, announced, drained⟩
  rw [watchWindow, bind_of_ok (watchWhole_of_ok le whole)]
  exact bind_of_ok (ensure_of tail _ m')

/-- The bytes that make up an item held back are taken for just that item. -/
theorem Steady.takeWhole_carried (steady : r.Steady t) (part : r.held ≠ [])
    (laid : p.view.Laid m) (same : r.length = p.length) {carried : List UInt8}
    (full : carried.length = t.width) :
    ∃ rest m', takeWhole { r with held := [] } p carried m =
        .ok (⟨r.length, r.announced, r.next + 1, []⟩, ⟨1, rest⟩) m' ∧
      m'.Alike m ∧ r.next + 1 ≤ r.announced := by
  have less := steady.lt_of_held part
  obtain ⟨n, rest, m', count, whole, alike, le, -⟩ :=
    takeWhole_ends (r := { r with held := [] }) laid same steady.next_le carried
  have one : n = 1 := by
    simp only [full, wholeItems, Nat.div_self t.width_pos] at count
    omega
  subst one
  exact ⟨rest, m', whole, alike, le⟩

/-- A window that ends inside the item held back is held back with it. -/
theorem Steady.watch_short (steady : r.Steady t) (part : r.held ≠ []) {window : List UInt8}
    (short : r.held.length + window.length < t.width) :
    r.accept p window m = .ok ({ r with held := r.held ++ window }, ⟨0, []⟩) m ∧
      r.watch p window m = .ok ({ r with held := r.held ++ window }, ⟨0, []⟩) m := by
  have lacking := minus_of_le (t := t) (Nat.le_of_lt steady.held_lt)
  have all : min (t.width - r.held.length) window.length = window.length := by omega
  have carried : (r.held ++ window).length < t.width := by
    rw [List.length_append]
    exact short
  rw [watch, accept, if_neg part, if_neg part, lacking, pure_bind]
  simp only [all, List.take_length, List.drop_length, if_pos carried]
  exact ⟨rfl, rfl⟩

/-- The item held back comes first, and then the rest of the window as if nothing were held. -/
theorem Steady.watch_full (steady : r.Steady t) (part : r.held ≠ []) (laid : p.view.Laid m)
    (same : r.length = p.length) {front : List UInt8} (back : List UInt8)
    (fits : r.held.length + front.length = t.width) :
    ∃ r' taken m', r.accept p (front ++ back) m = .ok (r', taken) m' ∧
      r.watch p (front ++ back) m = .ok (r', taken) m' ∧ Settled t r r' taken.rest := by
  have lacking := minus_of_le (t := t) (Nat.le_of_lt steady.held_lt)
  have missing : min (t.width - r.held.length) (front ++ back).length = front.length := by
    rw [List.length_append]
    omega
  have full : (r.held ++ front).length = t.width := by
    rw [List.length_append]
    exact fits
  have carried : ¬(r.held ++ front).length < t.width := Nat.not_lt.mpr (Nat.le_of_eq full.symm)
  obtain ⟨rest, between, whole, alike, le⟩ := steady.takeWhole_carried part laid same full
  have joined := watchWhole_of_ok (r := { r with held := [] }) steady.next_le whole
  have counted := ensure_of (rfl : 1 = 1) (.uneven 1) between
  obtain ⟨r', taken, m', later, watched, settled⟩ := watchWindow_ends
    (r := ⟨r.length, r.announced, r.next + 1, []⟩) (laid.alike alike) same rfl le back
  rw [watch, accept, if_neg part, if_neg part, lacking, pure_bind]
  simp only [missing, List.take_left, List.drop_left, if_neg carried]
  refine ⟨r', ⟨1 + taken.count, taken.rest⟩, m', ?_, ?_, settled.steady, settled.length_eq,
    settled.announced_eq, settled.drained⟩
  · rw [bind_of_ok whole, bind_of_ok later]
    rfl
  · rw [bind_of_ok joined]
    exact (bind_of_ok counted).trans (bind_of_ok watched)

/-- A call of a steady receiver ends well and leaves one, and it goes the same way watched. -/
theorem Steady.watch_ends (steady : r.Steady t) (laid : p.view.Laid m)
    (same : r.length = p.length) (window : List UInt8) :
    ∃ r' taken m', r.accept p window m = .ok (r', taken) m' ∧
      r.watch p window m = .ok (r', taken) m' ∧ Settled t r r' taken.rest := by
  by_cases none : r.held = []
  · rw [watch, accept, if_pos none, if_pos none]
    exact watchWindow_ends laid same none steady.next_le window
  · rcases Nat.lt_or_ge (r.held.length + window.length) t.width with short | enough
    · obtain ⟨ends, watched⟩ := steady.watch_short none short
      refine ⟨_, _, m, ends, watched, ⟨steady.next_le, ?_, ?_⟩, rfl, rfl, fun _ => rfl⟩
      · rw [List.length_append]
        exact short
      · exact fun _ => steady.lt_of_held none
    · have fits := steady.held_lt
      rw [← List.take_append_drop (t.width - r.held.length) window]
      apply steady.watch_full none laid same
      rw [List.length_take]
      omega

/-- A receiver that has taken more than was announced is found out. -/
example : watch ⟨2, 0, 1, []⟩ (⟨.empty, none⟩ : Endpoint .bool) [] .empty =
    .error (.below 0 1) .empty := rfl

theorem Reached.steady (reached : Reached t length announced r) :
    r.length = length ∧ r.announced = announced ∧ r.Steady t := by
  induction reached with
  | new => exact ⟨rfl, rfl, Nat.zero_le _, t.width_pos, fun part => absurd rfl part⟩
  | @call r r' p m m' window taken before laid same ends ih =>
    obtain ⟨rfl, rfl, steady⟩ := ih
    obtain ⟨_, _, _, ends', -, settled⟩ := steady.watch_ends laid same.symm window
    cases ends.symm.trans ends'
    exact ⟨settled.length_eq, settled.announced_eq, settled.steady⟩

/-- There is a view of any length, and a memory that serves it. -/
theorem exists_laid (t : ItemKind) (length : Nat) :
    ∃ (p : Endpoint t) (m : Memory t), p.view.Laid m ∧ p.length = length := by
  rcases Nat.eq_zero_or_pos length with rfl | pos
  · exact ⟨⟨.empty, none⟩, .empty, View.laid_empty _, rfl⟩
  · let whole : IndexRange := ⟨0, 1, length, Nat.one_pos, pos⟩
    let m : Memory t := ⟨#[Array.replicate length Item.zero]⟩
    have fits : whole.Fits length := by
      constructor
      · exact Int.le_refl 0
      · simp only [whole, IndexRange.upper]
        omega
    have held : m.Holds ⟨0, length⟩ := by simp [m, Memory.Holds, Memory.extent, Memory.bank]
    exact ⟨⟨.array ⟨0, length⟩ whole, none⟩, m, View.laid_of_region fits rfl held, rfl⟩

/-- A steady receiver is what one window leaves that has the items it has taken, whatever they are,
and the bytes it holds back. -/
theorem Steady.reached (steady : r.Steady t) : Reached t r.length r.announced r := by
  obtain ⟨p, m, laid, same⟩ := exists_laid t r.length
  obtain ⟨length, announced, next, held⟩ := r
  obtain ⟨le, fits, less⟩ := steady
  simp only at same le fits less ⊢
  -- Zeros stand for the items taken. What they are leaves no trace in the receiver.
  let window := List.replicate (next * t.width) 0 ++ held
  have size : window.length = next * t.width + held.length := by
    rw [List.length_append, List.length_replicate]
  have count : next = min (announced - 0) (wholeItems t window.length) := by
    have whole : wholeItems t window.length = next := by
      apply wholeItems_eq
      · omega
      · rw [Nat.succ_mul]
        omega
    omega
  have tail : (window.take ((announced - 0) * t.width)).drop (next * t.width) = held := by
    rcases Classical.em (held = []) with rfl | part
    · apply List.drop_of_length_le
      rw [List.length_take, size]
      exact Nat.min_le_right _ _
    · have more : (next + 1) * t.width ≤ (announced - 0) * t.width :=
        Nat.mul_le_mul_right _ (less part)
      rw [Nat.succ_mul] at more
      rw [List.take_of_length_le (by omega)]
      exact List.drop_left' List.length_replicate
  have ends := takeWindow_eq (r := ⟨length, announced, 0, []⟩) laid same.symm rfl window count
  simp only [tail, Nat.zero_add] at ends
  exact .call .new laid same ends

theorem reached_iff : Reached t length announced r ↔
    r.length = length ∧ r.announced = announced ∧ r.Steady t := by
  constructor
  · exact Reached.steady
  · rintro ⟨rfl, rfl, steady⟩
    exact steady.reached

/-- The receivers that calls lead to from a new one are the steady ones. A call of one ends well, it
goes the same way when its subtractions, the item held back and the tail are watched, and it leaves
nothing in its window while items are still to come. -/
theorem watched_calls_never_misstep (t : ItemKind) (length announced : Nat) (r : Receiver) :
    (Reached t length announced r ↔
      r.length = length ∧ r.announced = announced ∧ r.Steady t) ∧
    (Reached t length announced r →
      ∀ (p : Endpoint t) (m : Memory t) (window : List UInt8),
        p.view.Laid m → p.length = length →
          ∃ r' taken m', r.accept p window m = .ok (r', taken) m' ∧
            r.watch p window m = .ok (r', taken) m' ∧ (¬r'.IsDone → taken.rest = [])) := by
  refine ⟨reached_iff, ?_⟩
  intro reached p m window laid same
  obtain ⟨rfl, -, steady⟩ := reached.steady
  obtain ⟨r', taken, m', ends, watched, settled⟩ := steady.watch_ends laid same.symm window
  exact ⟨r', taken, m', ends, watched, settled.drained⟩

/-- Three items of eight bytes for a view of one. Five bytes are held back, and the next window has
the rest of the first item, which is stored, all of the second, which is dropped, and the first
bytes of the third. -/
theorem watched_calls_never_misstep_on_split_surplus :
    let p : Endpoint .int64 := ⟨.array ⟨0, 1⟩ ⟨0, 1, 1, by decide, by decide⟩, none⟩
    let m : Memory .int64 := ⟨#[#[0]]⟩
    let r : Receiver := ⟨1, 3, 0, [0, 0, 0, 0, 0]⟩
    let window : List UInt8 := [0, 0, 7, 0, 0, 0, 0, 0, 0, 0, 8, 0, 0]
    Reached .int64 1 3 r ∧ r.Steady .int64 ∧ p.view.Laid m ∧ p.length = 1 ∧
      r.watch p window m = .ok (⟨1, 3, 2, [0, 0]⟩, ⟨2, []⟩) ⟨#[#[7]]⟩ := by
  intro p m r window
  have laid : p.view.Laid m := by decide
  have first : accept ⟨1, 3, 0, []⟩ p [0, 0, 0, 0, 0] m = .ok (r, ⟨0, []⟩) m := rfl
  have reached : Reached .int64 1 3 r := .call .new laid rfl first
  obtain ⟨known, calls⟩ := watched_calls_never_misstep .int64 1 3 r
  obtain ⟨r', taken, m', ends, watched, -⟩ := calls reached p m window laid rfl
  have second : r.accept p window m = .ok (⟨1, 3, 2, [0, 0]⟩, ⟨2, []⟩) ⟨#[#[7]]⟩ := by
    cbv
  cases second.symm.trans ends
  exact ⟨reached, (known.mp reached).2.2, laid, rfl, watched⟩

end Receiver

end WireView
