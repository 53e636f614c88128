import WireView.Transfer
import WireView.Proofs.Packing

/-!
# Sending a view

A sender has sent the items before its next one. A window takes it on by as many items as fit, so
it never gets past the end of the view, and what a run of windows yields are the encodings of the
items it went past, wherever the windows end. Windows with room for an item each get to the end
once they have room for all items.
-/

namespace WireView

namespace Sender

variable {t : ItemKind} {p : Endpoint t} {m : Memory t} {k n : Nat}

theorem send_eq (laid : p.view.Laid m) (hk : k ≤ p.length) (room : Nat)
    (hn : n = min (p.length - k) (wholeItems t room)) :
    send ⟨p.length, k⟩ p (some room) m =
      .ok (⟨p.length, k + n⟩, ⟨n, encodeAll (p.contents k n m)⟩) m :=
  bind_of_ok (Endpoint.pack_eq laid hk hn)

/-- A run goes on from item to item, and leaves off at the end only if its windows have the room. -/
theorem drain_eq (laid : p.view.Laid m) (rooms : List Nat) (hk : k ≤ p.length) :
    ∃ n sent, k + n ≤ p.length ∧
      drain p rooms ⟨p.length, k⟩ m = .ok (⟨p.length, k + n⟩, sent) m ∧
      sent.flatMap Packed.bytes = encodeAll (p.contents k n m) ∧
      ((∀ room ∈ rooms, t.width ≤ room) →
        n = min (p.length - k) (rooms.map (wholeItems t)).sum) := by
  induction rooms generalizing k with
  | nil => exact ⟨0, [], hk, rfl, rfl, fun _ => (Nat.min_zero _).symm⟩
  | cons room rooms ih =>
    by_cases done : k = p.length
    · subst done
      refine ⟨0, [], Nat.le_refl _, ?_, rfl, fun _ => by rw [Nat.sub_self, Nat.zero_min]⟩
      have finished : IsDone ⟨p.length, p.length⟩ := rfl
      rw [drain, if_pos finished]
      rfl
    · have sent := send_eq laid hk room rfl
      have unfinished : ¬IsDone ⟨p.length, k⟩ := done
      generalize first : min (p.length - k) (wholeItems t room) = n at sent
      by_cases stuck : n = 0
      · subst stuck
        refine ⟨0, [⟨0, []⟩], hk, ?_, rfl, ?_⟩
        · rw [drain, if_neg unfinished, bind_of_ok sent]
          rfl
        · intro wide
          have one : 1 ≤ wholeItems t room := by
            rw [le_wholeItems, Nat.one_mul]
            exact wide room List.mem_cons_self
          omega
      · obtain ⟨n', more, le, run, bytes, all⟩ := ih (k := k + n) (by omega)
        refine ⟨n + n', ⟨n, encodeAll (p.contents k n m)⟩ :: more, by omega, ?_, ?_, ?_⟩
        · rw [drain, if_neg unfinished, bind_of_ok sent, ← Nat.add_assoc]
          simp only [if_neg stuck]
          exact bind_of_ok run
        · rw [List.flatMap_cons, bytes, Endpoint.contents_add, encodeAll_append]
        · intro wide
          have rest := all fun r hr => wide r (List.mem_cons_of_mem room hr)
          rw [List.map_cons, List.sum_cons]
          omega

end Sender

end WireView
