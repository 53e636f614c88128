import Mathlib.Data.List.FinRange
import WireView.Proofs.OperatorLaws
import WireView.Proofs.Streams

/-!
# Reducing messages that come in fragments

Several messages are folded into one view, each by a receiver of its own, and their windows come
in any order that keeps the windows of one message in theirs. At every moment memory holds what
the messages would have left one after another, each as far as its bytes have come: an orderless
operator lets the items of a window move past those of all the other messages.
-/

namespace WireView

variable {t : ItemKind} {n : Nat}

/-- Windows of several messages, in the order in which they come. -/
abbrev Schedule (n : Nat) := List (Fin n × List UInt8)

def Schedule.stream (ds : Schedule n) (j : Fin n) : List UInt8 :=
  (ds.filter fun d => d.1 = j).flatMap Prod.snd

@[simp] theorem Schedule.stream_nil (j : Fin n) : Schedule.stream [] j = [] := rfl

namespace Receiver

def feedAll (p : Endpoint t) : Schedule n → (Fin n → Receiver) → Action t (Fin n → Receiver)
  | [], rs => pure rs
  | (j, window) :: ds, rs => do
    let (r, _) ← (rs j).accept p window
    feedAll p ds (Function.update rs j r)

end Receiver

/-- The item of a message at an index, if it has come whole. -/
def arrivedItem? (t : ItemKind) (announced : Nat) (bs : List UInt8) (i : Nat) : Option (Item t) :=
  if i < min announced (bs.length / t.width) then
    some (Item.decode t ((bs.drop (i * t.width)).take t.width))
  else none

namespace Endpoint

variable {p : Endpoint t} {m : Memory t} {announced : Fin n → Nat} {bytes : Fin n → List UInt8}

def deliverAll (p : Endpoint t) (announced : Fin n → Nat) (bytes : Fin n → List UInt8)
    (js : List (Fin n)) (m : Memory t) : Memory t :=
  js.foldl (fun m j => p.deliver (announced j) [] (bytes j) m) m

@[simp] theorem deliverAll_cons (p : Endpoint t) (announced : Fin n → Nat)
    (bytes : Fin n → List UInt8) (j : Fin n) (js : List (Fin n)) (m : Memory t) :
    p.deliverAll announced bytes (j :: js) m =
      p.deliverAll announced bytes js (p.deliver (announced j) [] (bytes j) m) := rfl

theorem alike_deliverAll (p : Endpoint t) (announced : Fin n → Nat)
    (bytes : Fin n → List UInt8) (js : List (Fin n)) (m : Memory t) :
    (p.deliverAll announced bytes js m).Alike m := by
  induction js generalizing m with
  | nil => exact Memory.Alike.refl m
  | cons j js ih =>
    rw [deliverAll_cons]
    exact (ih _).trans (p.alike_deliver _ _ _ m)

theorem deliverAll_congr {bytes' : Fin n → List UInt8} {js : List (Fin n)}
    (same : ∀ j ∈ js, bytes j = bytes' j) (m : Memory t) :
    p.deliverAll announced bytes js m = p.deliverAll announced bytes' js m := by
  induction js generalizing m with
  | nil => rfl
  | cons j js ih =>
    rw [deliverAll_cons, deliverAll_cons, same j List.mem_cons_self]
    exact ih (fun k hk => same k (List.mem_cons_of_mem j hk)) _

theorem deliverAll_nothing (p : Endpoint t) (announced : Fin n → Nat) (js : List (Fin n))
    (m : Memory t) : p.deliverAll announced (fun _ => []) js m = m := by
  induction js generalizing m with
  | nil => rfl
  | cons j js ih => rw [deliverAll_cons, deliver_empty, ih]

section orderless

variable (swap : ∀ z x y : Item t,
  merged p.fold (merged p.fold z x) y = merged p.fold (merged p.fold z y) x)

include swap

/-- A window of one message moves past all of the others. -/
theorem deliver_deliverAll (count : Nat) (bs window : List UInt8) (js : List (Fin n))
    (m : Memory t) :
    p.deliver count bs window (p.deliverAll announced bytes js m) =
      p.deliverAll announced bytes js (p.deliver count bs window m) := by
  induction js generalizing m with
  | nil => rfl
  | cons j js ih =>
    have past : p.deliver (announced j) [] (bytes j) (p.deliver count bs window m) =
        p.deliver count bs window (p.deliver (announced j) [] (bytes j) m) :=
      putAll_comm swap _ _ _ _ m
    rw [deliverAll_cons, deliverAll_cons, ih, past]

/-- One more window of a message is as good as a message longer by that window. -/
theorem deliverAll_update {j : Fin n} {js : List (Fin n)} (once : js.Nodup) (hj : j ∈ js)
    (window : List UInt8) (m : Memory t) :
    p.deliver (announced j) (bytes j) window (p.deliverAll announced bytes js m) =
      p.deliverAll announced (Function.update bytes j (bytes j ++ window)) js m := by
  induction js generalizing m with
  | nil => cases hj
  | cons k js ih =>
    rw [List.nodup_cons] at once
    rw [deliverAll_cons, deliverAll_cons]
    by_cases here : j = k
    · subst k
      have others : ∀ i ∈ js, bytes i = Function.update bytes j (bytes j ++ window) i := by
        intro i hi
        rw [Function.update_of_ne]
        rintro rfl
        exact once.1 hi
      have longer := p.deliver_append (announced j) [] (bytes j) window m
      rw [List.nil_append] at longer
      rw [deliver_deliverAll swap, longer, Function.update_self, deliverAll_congr others]
    · have later : j ∈ js := by
        rcases List.mem_cons.mp hj with heq | hmem
        · exact absurd heq here
        · exact hmem
      rw [ih once.2 later, Function.update_of_ne (fun h => here h.symm)]

end orderless

theorem arrivedItem?_eq_some {count i : Nat} {bs : List UInt8}
    (whole : i < arrived t count bs) :
    arrivedItem? t count bs i =
      some (Item.decode t ((bs.drop (i * t.width)).take t.width)) :=
  if_pos whole

/-- A cell of the view takes in the items that have come for it, message by message. -/
theorem cell?_deliverAll (laid : p.view.Laid m) {i : Nat} (hi : i < p.length) {y : Item t}
    (hy : m.cell? (p.view.location i) = some y) (js : List (Fin n)) :
    (p.deliverAll announced bytes js m).cell? (p.view.location i) =
      some ((js.filterMap fun j => arrivedItem? t (announced j) (bytes j) i).foldl
        (merged p.fold) y) := by
  induction js generalizing m y with
  | nil => exact hy
  | cons j js ih =>
    have alike := p.alike_deliver (announced j) [] (bytes j) m
    rw [deliverAll_cons]
    by_cases whole : i < arrived t (announced j) (bytes j)
    · have room : i < min (arrived t (announced j) (bytes j)) p.length := by omega
      obtain ⟨z, old, new⟩ := cell?_deliver laid room
      obtain rfl : y = z := Option.some.inj (hy.symm.trans old)
      rw [ih (laid.alike alike) new]
      simp only [List.filterMap_cons, arrivedItem?_eq_some whole, List.foldl_cons]
    · have none : arrivedItem? t (announced j) (bytes j) i = none := if_neg whole
      have still : (p.deliver (announced j) [] (bytes j) m).cell? (p.view.location i) =
          some y := by
        rw [cell?_deliver_of_ne, hy]
        intro k hk meet
        have below : k < p.view.length := Nat.lt_of_lt_of_le hk (Nat.min_le_right _ _)
        rw [View.locate?_eq below] at meet
        have same := View.location_injective laid.fits below hi (Option.some.inj meet)
        omega
      rw [ih (laid.alike alike) still]
      simp only [List.filterMap_cons, none]

theorem cell?_deliverAll_of_ne {l : Location}
    (other : ∀ i < p.length, p.view.locate? i ≠ some l) (js : List (Fin n)) :
    (p.deliverAll announced bytes js m).cell? l = m.cell? l := by
  induction js generalizing m with
  | nil => rfl
  | cons j js ih =>
    rw [deliverAll_cons, ih, cell?_deliver_of_ne]
    intro i hi
    exact other i (Nat.lt_of_lt_of_le hi (Nat.min_le_right _ _))

end Endpoint

namespace Receiver

variable {p : Endpoint t} {m : Memory t}

/-- Handing on a window makes one message longer. -/
theorem update_receiverAfter (p : Endpoint t) (announced : Fin n → Nat)
    (bytes : Fin n → List UInt8) (j : Fin n) (bs : List UInt8) :
    Function.update (fun k => p.receiverAfter (announced k) (bytes k)) j
        (p.receiverAfter (announced j) bs) =
      fun k => p.receiverAfter (announced k) (Function.update bytes j bs k) := by
  funext k
  by_cases here : k = j
  · subst k
    rw [Function.update_self, Function.update_self]
  · rw [Function.update_of_ne here, Function.update_of_ne here]

theorem update_stream (bytes : Fin n → List UInt8) (j : Fin n) (window : List UInt8)
    (ds : Schedule n) (k : Fin n) :
    Function.update bytes j (bytes j ++ window) k ++ ds.stream k =
      bytes k ++ Schedule.stream ((j, window) :: ds) k := by
  by_cases here : j = k
  · subst k
    rw [Function.update_self, Schedule.stream, Schedule.stream,
      List.filter_cons_of_pos (by simp), List.flatMap_cons, List.append_assoc]
  · rw [Function.update_of_ne (fun h => here h.symm), Schedule.stream, Schedule.stream,
      List.filter_cons_of_neg (by simpa using here)]

/-- Where the order of folding makes no difference, a schedule leaves what its messages would leave
one after another. -/
theorem feedAll_eq (swap : ∀ z x y : Item t,
      merged p.fold (merged p.fold z x) y = merged p.fold (merged p.fold z y) x)
    (laid : p.view.Laid m) (announced : Fin n → Nat) (ds : Schedule n)
    (bytes : Fin n → List UInt8) :
    feedAll p ds (fun j => p.receiverAfter (announced j) (bytes j))
        (p.deliverAll announced bytes (List.finRange n) m) =
      .ok (fun j => p.receiverAfter (announced j) (bytes j ++ ds.stream j))
        (p.deliverAll announced (fun j => bytes j ++ ds.stream j) (List.finRange n) m) := by
  induction ds generalizing bytes with
  | nil =>
    simp only [Schedule.stream_nil, List.append_nil]
    rfl
  | cons d ds ih =>
    obtain ⟨j, window⟩ := d
    have first := accept_eq (laid.alike (p.alike_deliverAll announced bytes (List.finRange n) m))
      (announced j) (bytes j) window
    rw [Endpoint.deliverAll_update swap (List.nodup_finRange n) (List.mem_finRange j)] at first
    have rest := ih (Function.update bytes j (bytes j ++ window))
    simp only [update_stream] at rest
    rw [← rest, feedAll, bind_of_ok first, ← update_receiverAfter]

/-- Messages folded into one view by a built-in operator on anything but floats leave the same
behind however they are cut and however their windows are interleaved: each item of the view takes
in the items that came for it, in any order of the messages, and no other cell changes. -/
theorem fragments_any_order {op : Operator} {f : Fold (Item t)}
    (noFloat : t ≠ .float32 ∧ t ≠ .float64) (builtin : (OperatorTable.builtin t).get? op = some f)
    (v : View) (m : Memory t) (laid : v.Laid m) (announced : Fin n → Nat)
    (bytes : Fin n → List UInt8) :
    ∃ rs final, final.Alike m ∧
      (∀ i < v.length, ∃ l y, v.locate? i = some l ∧ m.cell? l = some y ∧
        ∀ js : List (Fin n), js.Perm (List.finRange n) →
          final.cell? l = some
            ((js.filterMap fun j => arrivedItem? t (announced j) (bytes j) i).foldl f.apply y)) ∧
      (∀ l, (∀ i < v.length, v.locate? i ≠ some l) → final.cell? l = m.cell? l) ∧
      ∀ ds : Schedule n, (∀ j, ds.stream j = bytes j) →
        feedAll ⟨v, some f⟩ ds (fun j => Endpoint.receiver ⟨v, some f⟩ (announced j)) m =
          .ok rs final := by
  have orderless := OperatorTable.builtin_orderless noFloat builtin
  let p : Endpoint t := ⟨v, some f⟩
  refine ⟨fun j => p.receiverAfter (announced j) (bytes j),
    p.deliverAll announced bytes (List.finRange n) m,
    p.alike_deliverAll announced bytes (List.finRange n) m, ?_, ?_, ?_⟩
  · intro i hi
    obtain ⟨y, hy⟩ := Memory.mem_iff.mp (laid.location_mem hi)
    refine ⟨v.location i, y, View.locate?_eq hi, hy, ?_⟩
    intro js perm
    rw [Endpoint.cell?_deliverAll (p := p) laid hi hy]
    congr 1
    apply List.Perm.foldl_eq' (perm.symm.filterMap _)
    intro x _ z _ stored
    exact orderless.swap stored x z
  · intro l other
    exact Endpoint.cell?_deliverAll_of_ne (p := p) other (List.finRange n)
  · intro ds cut
    have run := feedAll_eq (p := p) orderless.swap laid announced ds fun _ => []
    simp only [Endpoint.deliverAll_nothing, Endpoint.receiverAfter_nil, List.nil_append, cut] at run
    exact run

/-- Two messages of two items and of one, added to the first and the third of five cells. -/
theorem fragments_any_order_of_two_messages :
    let receivers : Fin 2 → Receiver := fun j => addedItems.receiver (if j = 0 then 2 else 1)
    addedItems.view.Laid fiveItems ∧
      ∃ rs final,
        feedAll addedItems [(0, [0]), (1, [0, 7]), (0, [5, 0, 6])] receivers fiveItems =
          .ok rs final ∧
        feedAll addedItems [(1, [0]), (0, [0, 5]), (1, [7]), (0, [0, 6])] receivers fiveItems =
          .ok rs final ∧
        final.cell? ⟨0, 0⟩ = some 13 ∧ final.cell? ⟨0, 2⟩ = some 9 ∧
        final.cell? ⟨0, 1⟩ = some 2 := by
  have laid : addedItems.view.Laid fiveItems := by decide
  have sum : (OperatorTable.builtin .int16).get? .sum = some ⟨"sum", (· + ·)⟩ := rfl
  obtain ⟨rs, final, -, cells, others, runs⟩ := fragments_any_order (by decide) sum
    addedItems.view fiveItems laid (fun j : Fin 2 => if j = 0 then 2 else 1)
    (fun j => if j = 0 then [0, 5, 0, 6] else [0, 7])
  obtain ⟨l, y, hl, hy, first⟩ := cells 0 (by decide)
  obtain ⟨k, z, hk, hz, third⟩ := cells 1 (by decide)
  obtain rfl : ⟨0, 0⟩ = l := Option.some.inj hl
  obtain rfl : 1 = y := Option.some.inj hy
  obtain rfl : ⟨0, 2⟩ = k := Option.some.inj hk
  obtain rfl : 3 = z := Option.some.inj hz
  refine ⟨laid, rs, final, runs _ (by decide), runs _ (by decide), ?_, ?_, ?_⟩
  · exact first _ (List.Perm.refl _)
  · exact third _ (List.Perm.refl _)
  · exact others ⟨0, 1⟩ (by decide)

end Receiver

end WireView
