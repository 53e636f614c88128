import WireView.Proofs.Sending
import WireView.Proofs.Snapshot
import WireView.Proofs.Streams

/-!
# Transfers

What a sender puts on the wire is a function of the items of its view, and what a receiver does to
memory is a function of the bytes that came. So a transfer puts the items of the source, as they
were when they were sent, at the indices of the destination, whatever the windows on either side;
and a copy that never reads what it wrote does the same without a wire.
-/

namespace WireView

variable {t : ItemKind} {m : Memory t} {p q : Endpoint t}

namespace Endpoint

/-- Of the items on the wire, those land that the view has room for. -/
theorem landed_encodeAll (p : Endpoint t) (xs : List (Item t)) :
    p.landed xs.length (encodeAll xs) = xs.take p.length := by
  have all : arrived t xs.length (encodeAll xs) = xs.length :=
    arrived_of_le t (Nat.le_of_eq (length_encodeAll xs).symm)
  have decoded := decodeMany_encodeAll xs []
  rw [List.append_nil] at decoded
  rw [landed, all, Nat.min_comm, ← take_decodeMany, decoded]

theorem deliver_encodeAll (p : Endpoint t) (xs : List (Item t)) (m : Memory t) :
    p.deliver xs.length [] (encodeAll xs) m = p.putAll 0 (xs.take p.length) m := by
  rw [deliver_start, landed_encodeAll]

/-- The receiver that all announced items have come to. -/
theorem receiverAfter_encodeAll (p : Endpoint t) (xs : List (Item t)) :
    p.receiverAfter xs.length (encodeAll xs) = ⟨p.length, xs.length, xs.length, []⟩ := by
  have all : arrived t xs.length (encodeAll xs) = xs.length :=
    arrived_of_le t (Nat.le_of_eq (length_encodeAll xs).symm)
  have none : ((encodeAll xs).take (xs.length * t.width)).drop (xs.length * t.width) = [] := by
    rw [List.drop_take, Nat.sub_self, List.take_zero]
  rw [receiverAfter, all, none]

theorem items_eq (laid : p.view.Laid m) : p.items m = .ok (p.contents 0 p.length m) m := by
  rw [items, List.range_eq_range']
  exact mapM_get laid (Nat.le_of_eq (Nat.zero_add _))

end Endpoint

namespace Receiver

/-- Feeding the wire in pieces puts the items that were sent. -/
theorem feed_encodeAll (laid : p.view.Laid m) (xs : List (Item t)) {windows : List (List UInt8)}
    (cut : windows.flatten = encodeAll xs) :
    ∃ taken, feed p windows (p.receiver xs.length) m =
      .ok (⟨p.length, xs.length, xs.length, []⟩, taken) (p.putAll 0 (xs.take p.length) m) := by
  obtain ⟨taken, run, -, -⟩ := feed_eq laid xs.length windows []
  rw [Endpoint.receiverAfter_nil, List.nil_append, cut, Endpoint.receiverAfter_encodeAll,
    Endpoint.deliver_encodeAll] at run
  exact ⟨taken, run⟩

end Receiver

namespace Sender

/-- Whatever its windows, a sender has sent the first items of its view, and it has sent all of
them once windows that each take an item have room for as many. -/
theorem drain_sender (laid : q.view.Laid m) (rooms : List Nat) :
    ∃ s sent, drain q rooms q.sender m = .ok (s, sent) m ∧ s.length = q.length ∧
      s.next ≤ q.length ∧
      sent.flatMap Packed.bytes = encodeAll ((q.contents 0 q.length m).take s.next) ∧
      ((∀ room ∈ rooms, t.width ≤ room) → q.length ≤ (rooms.map (· / t.width)).sum →
        s.next = q.length) := by
  obtain ⟨n, sent, le, run, bytes, all⟩ := drain_eq laid rooms (Nat.zero_le q.length)
  rw [Nat.zero_add] at le run
  refine ⟨⟨q.length, n⟩, sent, run, rfl, le, ?_, ?_⟩
  · rw [bytes, Endpoint.take_contents laid (Nat.le_of_eq (Nat.zero_add _)), Nat.min_eq_left le]
  · intro wide enough
    have count := all wide
    rw [Nat.sub_zero] at count
    exact count.trans (Nat.min_eq_left enough)

end Sender

/-- A transfer delivers the source. A sender never gets past the end of its view, and what it has
put on the wire are the encodings of the items before it, whatever its windows; with windows that
each take an item and together take all, it gets to the end. However the wire is cut, the receiver
ends with all items taken and nothing held back, and the items that both views have are delivered
as they were before the transfer. A copy between views of different identity and without a common
cell leaves the same memory. -/
theorem transfer_delivers_source (p q : Endpoint t) (m : Memory t) (lp : p.view.Laid m)
    (lq : q.view.Laid m) :
    ∃ (xs : List (Item t)) (r : Receiver) (final : Memory t),
      q.items m = .ok xs m ∧
      (∀ rooms : List Nat, ∃ s sent, Sender.drain q rooms q.sender m = .ok (s, sent) m ∧
        s.length = q.length ∧ s.next ≤ q.length ∧
        sent.flatMap Packed.bytes = encodeAll (xs.take s.next) ∧
        ((∀ room ∈ rooms, t.width ≤ room) → q.length ≤ (rooms.map (· / t.width)).sum →
          s.IsDone ∧ s.next = q.length ∧ sent.flatMap Packed.bytes = encodeAll xs)) ∧
      (∀ windows : List (List UInt8), windows.flatten = encodeAll xs →
        ∃ taken, Receiver.feed p windows (p.receiver q.length) m = .ok (r, taken) final) ∧
      r.IsDone ∧ r.next = q.length ∧ r.held = [] ∧
      Delivered q p (min q.length p.length) m final ∧
      (q.identity ≠ p.identity → p.view.Disjoint q.view → p.absorb q m = .ok () final) := by
  have whole : 0 + q.length ≤ q.length := Nat.le_of_eq (Nat.zero_add _)
  have size : (q.contents 0 q.length m).length = q.length := Endpoint.length_contents lq whole
  have landed : (q.contents 0 q.length m).take p.length =
      q.contents 0 (min q.length p.length) m := by
    rw [Endpoint.take_contents lq whole, Nat.min_comm]
  refine ⟨q.contents 0 q.length m, ⟨p.length, q.length, q.length, []⟩,
    p.putAll 0 (q.contents 0 (min q.length p.length) m) m, Endpoint.items_eq lq, ?_, ?_,
    Nat.le_refl _, rfl, rfl, ?_, ?_⟩
  · intro rooms
    obtain ⟨s, sent, run, len, le, bytes, all⟩ := Sender.drain_sender lq rooms
    refine ⟨s, sent, run, len, le, bytes, ?_⟩
    intro wide enough
    have done := all wide enough
    refine ⟨done.trans len.symm, done, ?_⟩
    rw [bytes, done, List.take_of_length_le (Nat.le_of_eq size)]
  · intro windows cut
    have fed := Receiver.feed_encodeAll lp (q.contents 0 q.length m) cut
    rwa [size, landed] at fed
  · exact Endpoint.delivered_putAll lp lq (Nat.min_le_right _ _) (Nat.min_le_left _ _)
  · intro differ apart
    exact Endpoint.absorb_eq_putAll lp lq differ
      (apart.readsAhead (Nat.min_le_left _ _) (Nat.min_le_right _ _))

/-- Four items of two rows of a square go through three windows to the three added up in an array,
and the fourth is dropped. -/
theorem transfer_delivers_source_to_shorter :
    let square : Grid := ⟨⟨0, 9⟩, 3, 3, rfl⟩
    let m : Memory .int16 := ⟨#[#[1, 2, 3, 4, 5, 6, 7, 8, 9], #[10, 20, 30, 40, 50]]⟩
    let q : Endpoint .int16 :=
      ⟨.block square ⟨1, 1, 2, by decide, by decide⟩ ⟨0, 2, 2, by decide, by decide⟩, none⟩
    let p : Endpoint .int16 :=
      ⟨.array ⟨1, 5⟩ ⟨0, 2, 3, by decide, by decide⟩, some ⟨"sum", (· + ·)⟩⟩
    p.view.Laid m ∧ q.view.Laid m ∧
      ∃ s sent r taken final,
        Sender.drain q [5, 2, 3] q.sender m = .ok (s, sent) m ∧ s.IsDone ∧
        sent.flatMap Packed.bytes = [0, 4, 0, 6, 0, 7, 0, 9] ∧
        Receiver.feed p [[0], [4, 0, 6, 0], [], [7, 0, 9]] (p.receiver 4) m =
          .ok (r, taken) final ∧
        r.IsDone ∧ p.get 2 final = .ok 57 final ∧ final.cell? ⟨1, 3⟩ = some 40 ∧
        p.absorb q m = .ok () final := by
  intro square m q p
  have lp : p.view.Laid m := by decide
  have lq : q.view.Laid m := by decide
  obtain ⟨xs, r, final, items, sender, receiver, done, -, -, delivered, copied⟩ :=
    transfer_delivers_source p q m lp lq
  have all : [4, 6, 7, 9] = xs := by injection items
  subst all
  obtain ⟨s, sent, run, -, -, -, finished⟩ := sender [5, 2, 3]
  obtain ⟨finished, -, wire⟩ := finished (by decide) (by decide)
  obtain ⟨taken, fed⟩ := receiver [[0], [4, 0, 6, 0], [], [7, 0, 9]] (by decide)
  obtain ⟨x, y, hx, hy, third⟩ := delivered.item 2 (by decide)
  injection hx with hx
  injection hy with hy
  subst hx hy
  have gap := delivered.others ⟨1, 3⟩ (by decide)
  refine ⟨lp, lq, s, sent, r, taken, final, run, finished, wire, fed, done, third, gap, ?_⟩
  exact copied (by decide) (View.disjoint_of_bank? (by decide))

end WireView
