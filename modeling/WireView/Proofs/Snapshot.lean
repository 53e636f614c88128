import WireView.Proofs.Copying
import WireView.Proofs.Packing

/-!
# Copies that never read what they wrote

A copy reads each item just before it writes one. Where no item is read after it was overwritten,
all of them are those from before the call, and the copy leaves what putting these items one by
one would leave. Views without a common cell are of this kind.
-/

namespace WireView

variable {t : ItemKind}

namespace Memory

variable {fold : Option (Fold (Item t))} {m : Memory t}

theorem carry_eq_merge {w : Step} {x : Item t} (read : m.cell? w.1 = some x) :
    m.carry fold w = m.merge fold w.2 x := by
  simp only [carry, read]

theorem carryAll_eq_mergeAll {ws : List Step} {xs : List (Item t)}
    (read : ws.map (fun w => m.cell? w.1) = xs.map some)
    (ahead : ws.Pairwise fun w v => v.1 ≠ w.2) :
    m.carryAll fold ws = m.mergeAll fold ((ws.map Prod.snd).zip xs) := by
  induction ws generalizing m xs with
  | nil => rfl
  | cons w ws ih =>
    rw [List.pairwise_cons] at ahead
    obtain ⟨clear, later⟩ := ahead
    cases xs with
    | nil => cases read
    | cons x xs =>
      rw [List.map_cons, List.map_cons] at read
      injection read with first rest
      have still : ws.map (fun v => (m.merge fold w.2 x).cell? v.1) = xs.map some := by
        rw [← rest]
        apply List.map_congr_left
        intro v hv
        exact cell?_merge_of_ne fold m x (clear v hv)
      rw [carryAll_cons, carry_eq_merge first, ih still later]
      rfl

end Memory

namespace View

/-- No cell of the first `n` items of the source is overwritten before it is read. -/
def ReadsAhead (source target : View) (n : Nat) : Prop :=
  ∀ i j, i < j → j < n → source.location j ≠ target.location i

def Disjoint (v w : View) : Prop := ∀ i j l, v.locate? i = some l → w.locate? j ≠ some l

theorem bank?_of_locate? {v : View} {i : Nat} {l : Location} (h : v.locate? i = some l) :
    v.bank? = some l.bank := by
  unfold locate? at h
  split at h
  · obtain ⟨b, hb, rfl⟩ := Option.map_eq_some_iff.mp h
    exact hb
  · cases h

theorem disjoint_of_bank? {v w : View} (apart : v.bank? ≠ w.bank?) : v.Disjoint w := by
  intro i j l here there
  exact apart ((bank?_of_locate? here).trans (bank?_of_locate? there).symm)

theorem Disjoint.readsAhead {source target : View} {n : Nat} (apart : target.Disjoint source)
    (hs : n ≤ source.length) (ht : n ≤ target.length) : source.ReadsAhead target n := by
  intro i j hij hj same
  apply apart i j (target.location i) (locate?_eq (by omega))
  rw [← same]
  exact locate?_eq (by omega)

theorem ReadsAhead.pairwise_steps {source target : View} {n : Nat}
    (ahead : source.ReadsAhead target n) :
    (source.steps target 0 n).Pairwise fun w v => v.1 ≠ w.2 := by
  rw [steps, cells, cells, List.zip_map', List.pairwise_map]
  apply List.Pairwise.imp_of_mem _ List.pairwise_lt_range'
  intro i j _ hj hij
  rw [List.mem_range'_1] at hj
  exact ahead i j hij (by omega)

end View

/-- The first `n` items of an endpoint have become those that the source had before, or have been
combined with them, and no other cell has changed. -/
structure Delivered (source target : Endpoint t) (n : Nat) (before after : Memory t) : Prop where
  item : ∀ i < n, ∃ x y, source.get i before = .ok x before ∧ target.get i before = .ok y before ∧
    target.get i after = .ok (merged target.fold y x) after
  others : ∀ l, (∀ i < n, target.view.locate? i ≠ some l) → after.cell? l = before.cell? l
  alike : after.Alike before

namespace Endpoint

variable {p q : Endpoint t} {m : Memory t} {n : Nat}

/-- Putting the items of the source delivers them. -/
theorem delivered_putAll (lp : p.view.Laid m) (lq : q.view.Laid m) (hp : n ≤ p.length)
    (hq : n ≤ q.length) : Delivered q p n m (p.putAll 0 (q.contents 0 n m) m) := by
  have hq' : 0 + n ≤ q.length := by omega
  have size : (q.contents 0 n m).length = n := length_contents lq hq'
  have fit : 0 + (q.contents 0 n m).length ≤ p.length := by omega
  constructor
  · intro i hi
    have hi' : i < (q.contents 0 n m).length := by omega
    have listed := List.getElem?_eq_getElem hi'
    have read := get_of_contents lq hq' listed
    obtain ⟨y, old, new⟩ := get_putAll lp fit listed
    rw [Nat.zero_add] at read old new
    exact ⟨_, y, read, old, new⟩
  · intro l other
    apply cell?_putAll_of_ne fit
    intro i hi
    rw [Nat.zero_add]
    exact other i (by omega)
  · exact p.alike_putAll 0 _ m

/-- The steps of such a copy put the items that the source had before it. -/
theorem carryAll_steps (lq : q.view.Laid m) (hq : n ≤ q.length)
    (ahead : q.view.ReadsAhead p.view n) :
    m.carryAll p.fold (q.view.steps p.view 0 n) = p.putAll 0 (q.contents 0 n m) m := by
  have hq' : 0 + n ≤ q.length := by omega
  have sources : (q.view.steps p.view 0 n).map Prod.fst = q.view.cells 0 n :=
    List.map_fst_zip (by simp)
  have targets : (q.view.steps p.view 0 n).map Prod.snd = p.view.cells 0 n :=
    List.map_snd_zip (by simp)
  have read : (q.view.steps p.view 0 n).map (fun w => m.cell? w.1) =
      (q.contents 0 n m).map some := by
    rw [contents, Memory.map_some_itemsAt (lq.cells_mem hq'), ← sources, List.map_map]
    rfl
  rw [Memory.carryAll_eq_mergeAll read ahead.pairwise_steps, targets, putAll,
    length_contents lq hq']

theorem absorb_eq_putAll (lp : p.view.Laid m) (lq : q.view.Laid m)
    (differ : q.identity ≠ p.identity)
    (ahead : q.view.ReadsAhead p.view (min q.length p.length)) :
    p.absorb q m = .ok () (p.putAll 0 (q.contents 0 (min q.length p.length) m) m) := by
  rw [absorb_eq lp lq differ, carryAll_steps lq (by omega) ahead]

end Endpoint

end WireView
