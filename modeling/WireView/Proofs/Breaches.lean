import WireView.Proofs.Identity
import WireView.Proofs.Making
import WireView.Proofs.Receiving
import WireView.Proofs.Windows

/-!
# Where a view is breached

A view that is made keeps all its cells inside its storage, so nothing that goes through it can end
in a breach but an index or a start past its end, and these are found out before anything is read
or written. Cursors that were made for the length of a view never ask for such a start.
-/

namespace WireView

variable {t : ItemKind}

/-- The action breaches just under a condition, before it has changed anything. -/
structure BreachesIff {σ β : Type} (a : EStateM Breach σ β) (s : σ) (past : Prop) (b : Breach) :
    Prop where
  breached : past → a s = .error b s
  served : ¬past → ∃ x s', a s = .ok x s'

section cursors

variable {p : Endpoint t} {m : Memory t}

namespace Sender

def serve : List (Endpoint t × Option Nat) → Sender → Action t Sender
  | [], s => pure s
  | (p, room) :: uses, s => do
    let (s, _) ← s.send p room
    serve uses s

variable {s : Sender}

/-- No window takes a sender past its length. -/
theorem send_within (laid : p.view.Laid m) (same : p.length = s.length) (le : s.next ≤ s.length)
    (room : Option Nat) : ∃ n packed, s.next + n ≤ s.length ∧
      s.send p room m = .ok ({ s with next := s.next + n }, packed) m := by
  have fit := p.packable_le s.next room
  have packed : p.pack s.next room m = _ := Endpoint.pack_eq laid (same ▸ le) rfl
  exact ⟨p.packable s.next room, _, by omega, bind_of_ok packed⟩

theorem serve_within {uses : List (Endpoint t × Option Nat)}
    (fit : ∀ u ∈ uses, u.1.view.Laid m ∧ u.1.length = s.length) (le : s.next ≤ s.length) :
    ∃ s', serve uses s m = .ok s' m ∧ s'.next ≤ s'.length := by
  induction uses generalizing s with
  | nil => exact ⟨s, rfl, le⟩
  | cons u uses ih =>
    obtain ⟨p, room⟩ := u
    obtain ⟨laid, same⟩ := fit _ List.mem_cons_self
    obtain ⟨n, packed, le', sent⟩ := send_within laid same le room
    obtain ⟨s', later, bound⟩ :=
      ih (s := { s with next := s.next + n }) (fun u hu => fit u (List.mem_cons_of_mem _ hu)) le'
    exact ⟨s', (bind_of_ok sent).trans later, bound⟩

end Sender

namespace Receiver

def serve : List (Endpoint t × List UInt8) → Receiver → Action t Receiver
  | [], r => pure r
  | (p, window) :: uses, r => do
    let (r, _) ← r.accept p window
    serve uses r

/-- What a receiver knows depends on the length of the view, and not on the view. -/
theorem receiverAfter_congr {q : Endpoint t} (same : q.length = p.length) (announced : Nat)
    (bs : List UInt8) : q.receiverAfter announced bs = p.receiverAfter announced bs := by
  rw [Endpoint.receiverAfter, Endpoint.receiverAfter, same]

theorem serve_eq {uses : List (Endpoint t × List UInt8)} (announced : Nat) (bs : List UInt8)
    (fit : ∀ u ∈ uses, u.1.view.Laid m ∧ u.1.length = p.length) :
    ∃ m', serve uses (p.receiverAfter announced bs) m =
      .ok (p.receiverAfter announced (bs ++ uses.flatMap Prod.snd)) m' := by
  induction uses generalizing bs m with
  | nil => exact ⟨m, by rw [List.flatMap_nil, List.append_nil]; rfl⟩
  | cons u uses ih =>
    obtain ⟨q, window⟩ := u
    obtain ⟨laid, same⟩ := fit _ List.mem_cons_self
    have first := accept_eq laid announced bs window
    rw [receiverAfter_congr same, receiverAfter_congr same] at first
    obtain ⟨m', later⟩ := ih (bs ++ window) (m := q.deliver announced bs window m) (by
      intro u hu
      obtain ⟨laid', same'⟩ := fit u (List.mem_cons_of_mem _ hu)
      exact ⟨laid'.alike (q.alike_deliver announced bs window m), same'⟩)
    refine ⟨m', (bind_of_ok first).trans ?_⟩
    rw [List.flatMap_cons, ← List.append_assoc]
    exact later

end Receiver

end cursors

namespace View

variable {m : Memory t} {v w : View}

/-- The runs that a bulk walk along two views takes side by side. -/
def sideBySide (source target : View) : List (Run × Run) :=
  match source, target with
  | array _ range, array _ range' =>
    let n := min range.length range'.length
    [(rangeRun range n, rangeRun range' n)]
  | block g rows columns, block g' rows' columns' =>
    if rows.length = rows'.length ∧ columns.length = columns'.length then
      (rowRuns g rows columns).zip (rowRuns g' rows' columns')
    else []
  | _, _ => []

theorem bulk?_eq_sideBySide (fold : Option (Fold (Item t))) {walk : Action t Unit} {s d : Region}
    (hs : v.region? = some s) (hd : w.region? = some d) (h : bulk? fold v w = some walk) :
    walk = writeRuns fold s.bank d.bank (v.sideBySide w) := by
  unfold bulk? at h
  split at h
  · cases hs
    cases hd
    cases h
    rfl
  · split at h
    · next shape =>
      cases hs
      cases hd
      cases h
      rw [sideBySide, if_pos shape]
      rfl
    · cases h
  · cases h

/-- Each run of a bulk walk lies in the storage on its side. -/
theorem within_sideBySide {s d : Region} (fv : v.Fits) (fw : w.Fits) (hs : v.region? = some s)
    (hd : w.region? = some d) :
    ∀ r ∈ v.sideBySide w, r.1.Within s.extent ∧ r.2.Within d.extent := by
  intro r hr
  unfold sideBySide at hr
  split at hr
  · next range _ range' =>
    cases hs
    cases hd
    cases List.mem_singleton.mp hr
    have pos : 0 < min range.length range'.length :=
      Nat.lt_min.mpr ⟨range.length_pos, range'.length_pos⟩
    exact ⟨within_rangeRun fv pos (Nat.min_le_left _ _),
      within_rangeRun fw pos (Nat.min_le_right _ _)⟩
  · split at hr
    · cases hs
      cases hd
      obtain ⟨left, right⟩ := List.of_mem_zip hr
      exact ⟨within_rowRuns fv _ left, within_rowRuns fw _ right⟩
    · cases hr
  · cases hr

end View

namespace Endpoint

variable {p q : Endpoint t} {m : Memory t}

/-- Where an endpoint is breached, by itself and with whatever it is used. Packing and unpacking are
looked at twice, with the window handed on and with the window in place. -/
structure Guarded (p : Endpoint t) (m : Memory t) : Prop where
  get : ∀ i, BreachesIff (p.get i) m (p.length ≤ i) (.index i p.length)
  put : ∀ i x, BreachesIff (p.put i x) m (p.length ≤ i) (.index i p.length)
  pack : ∀ start room,
    BreachesIff (p.pack start room) m (p.length < start) (.start start p.length)
  unpack : ∀ start most window,
    BreachesIff (p.unpack start most window) m (p.length < start) (.start start p.length)
  packInto : ∀ start room window, BreachesIff (p.packInto start room) ⟨m, window⟩
    (p.length < start) (.start start p.length)
  unpackFrom : ∀ start most window, BreachesIff (p.unpackFrom start most) ⟨m, window⟩
    (p.length < start) (.start start p.length)
  fill : ∀ x, ∃ m', p.fill x m = .ok () m'
  absorb : ∀ q : Endpoint t, View.Made m q.view → ∃ m', p.absorb q m = .ok () m'
  send : ∀ uses : List (Endpoint t × Option Nat),
    (∀ u ∈ uses, View.Made m u.1.view ∧ u.1.length = p.length) →
      ∃ s, Sender.serve uses p.sender m = .ok s m
  receive : ∀ (announced : Nat) (uses : List (Endpoint t × List UInt8)),
    (∀ u ∈ uses, View.Made m u.1.view ∧ u.1.length = p.length) →
      ∃ r m', Receiver.serve uses (p.receiver announced) m = .ok r m'
  /-- The slots that packing and unpacking enter. -/
  runs : ∀ s start n, p.view.region? = some s → 0 < n → start + n ≤ p.length →
    m.Holds s ∧ ∀ r ∈ p.view.runs start n,
      p.view.slotsOf r s.extent = .ok r.slots ∧ ∀ k ∈ r.slots, k < s.extent
  /-- The slots that a bulk walk enters on both sides. -/
  walks : ∀ q : Endpoint t, View.Made m q.view → ∀ s d walk, q.view.region? = some s →
    p.view.region? = some d → bulk? p.fold q.view p.view = some walk →
      walk = writeRuns p.fold s.bank d.bank (q.view.sideBySide p.view) ∧
      ∀ w ∈ q.view.sideBySide p.view, w.1.Within s.extent ∧ w.2.Within d.extent

theorem laid_uses {γ : Type} {uses : List (Endpoint t × γ)} {n : Nat}
    (fit : ∀ u ∈ uses, View.Made m u.1.view ∧ u.1.length = n) :
    ∀ u ∈ uses, u.1.view.Laid m ∧ u.1.length = n := by
  intro u hu
  obtain ⟨made, same⟩ := fit u hu
  exact ⟨View.laid_of_made made, same⟩

theorem absorb_served (lp : p.view.Laid m) (lq : q.view.Laid m) :
    ∃ m', p.absorb q m = .ok () m' := by
  by_cases same : q.identity = p.identity
  · exact ⟨m, View.absorb_of_same same⟩
  · exact ⟨_, absorb_eq lp lq same⟩

/-- An endpoint of a view that was made breaches on an index or a start past its end, before it has
done anything, and on nothing else. Every slot it enters lies in its storage. -/
theorem guarded_of_made (made : View.Made m p.view) : p.Guarded m := by
  have laid := View.laid_of_made made
  refine ⟨?get, ?put, ?pack, ?unpack, ?packInto, ?unpackFrom, ?fill, ?absorb, ?send, ?receive,
    ?runs, ?walks⟩
  case get =>
    intro i
    refine ⟨get_of_le, fun inside => ?_⟩
    have hi : i < p.length := Nat.lt_of_not_le inside
    obtain ⟨x, hx⟩ := Memory.mem_iff.mp (laid.location_mem hi)
    exact ⟨x, m, get_eq hi hx⟩
  case put =>
    intro i x
    refine ⟨fun past => put_of_le past x, fun inside => ?_⟩
    exact ⟨(), _, put_eq laid (Nat.lt_of_not_le inside) x⟩
  case pack =>
    intro start room
    refine ⟨fun past => pack_of_lt past room, fun inside => ?_⟩
    exact ⟨_, m, pack_eq laid (Nat.le_of_not_lt inside) rfl⟩
  case unpack =>
    intro start most window
    refine ⟨fun past => unpack_of_lt past most window, fun inside => ?_⟩
    exact ⟨_, _, unpack_eq laid (Nat.le_of_not_lt inside) most window rfl⟩
  case packInto =>
    intro start room window
    refine ⟨packInto_of_lt, fun inside => ?_⟩
    have packed : p.pack start room m = _ := pack_eq laid (Nat.le_of_not_lt inside) rfl
    exact ⟨_, _, packInto_of_ok packed⟩
  case unpackFrom =>
    intro start most window
    refine ⟨unpackFrom_of_lt, fun inside => ?_⟩
    exact ⟨_, _, unpackFrom_of_ok (unpack_eq laid (Nat.le_of_not_lt inside) most window rfl)⟩
  case fill => exact fun x => ⟨_, fill_eq laid x⟩
  case absorb => exact fun q made' => absorb_served laid (View.laid_of_made made')
  case send =>
    intro uses fit
    have start : p.sender.next ≤ p.sender.length := Nat.zero_le _
    obtain ⟨s, run, -⟩ := Sender.serve_within (laid_uses fit) start
    exact ⟨s, run⟩
  case receive =>
    intro announced uses fit
    obtain ⟨m', run⟩ := Receiver.serve_eq announced [] (laid_uses fit)
    rw [receiverAfter_nil] at run
    exact ⟨_, m', run⟩
  case runs =>
    intro s start n hs pos hn
    refine ⟨laid.held s hs, fun r hr => ?_⟩
    have within := View.within_runs laid.fits hs pos hn hr
    exact ⟨View.slotsOf_eq within (View.mem_runs pos hr).2, within.slot_lt⟩
  case walks =>
    intro q made' s d walk hs hd bulk
    exact ⟨View.bulk?_eq_sideBySide p.fold hs hd bulk,
      View.within_sideBySide (View.laid_of_made made').fits laid.fits hs hd⟩

/-- Every second column of the last two rows of a square, with items added to it. Beyond its four
items it is breached; a receiver of six items, split between two windows, is not. -/
theorem guarded_of_made_in_square :
    let square : Grid := ⟨⟨0, 9⟩, 3, 3, rfl⟩
    let rows : IndexRange := ⟨1, 1, 2, by decide, by decide⟩
    let columns : IndexRange := ⟨0, 2, 2, by decide, by decide⟩
    let m : Memory .int16 := ⟨#[#[1, 2, 3, 4, 5, 6, 7, 8, 9]]⟩
    let p : Endpoint .int16 := ⟨.block square rows columns, some ⟨"sum", (· + ·)⟩⟩
    View.Made m p.view ∧ p.get 4 m = .error (.index 4 4) m ∧
      p.unpackFrom 5 (2 ^ 64 - 1) ⟨m, [0, 1]⟩ = .error (.start 5 4) ⟨m, [0, 1]⟩ ∧
      (∃ x m', p.unpack 3 (2 ^ 64 - 1) [0, 1, 2] m = .ok x m') ∧
      (∃ m', p.absorb ⟨.ofMatrix square, none⟩ m = .ok () m') ∧
      ∃ r m', Receiver.serve [(p, [0, 1, 0, 2, 0]), (p, [3, 0, 4, 0, 5, 0, 6])] (p.receiver 6) m =
        .ok r m' := by
  intro square rows columns m p
  have held : m.Holds square.storage := rfl
  have cut : View.cutBlock square rows columns = .ok p.view := rfl
  have made : View.Made m p.view := .cutBlock held cut
  have guarded := guarded_of_made made
  refine ⟨made, (guarded.get 4).breached (by decide), ?_, ?_, ?_, ?_⟩
  · exact (guarded.unpackFrom 5 _ _).breached (by decide)
  · exact (guarded.unpack 3 _ _).served (by decide)
  · exact guarded.absorb _ (.ofMatrix held)
  · apply guarded.receive
    intro u hu
    rcases List.mem_pair.mp hu with rfl | rfl
    · exact ⟨made, rfl⟩
    · exact ⟨made, rfl⟩

end Endpoint

end WireView
