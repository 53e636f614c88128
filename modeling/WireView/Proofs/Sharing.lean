import WireView.View.Slice
import WireView.Proofs.Identity
import WireView.Proofs.Making
import WireView.Proofs.Packing

/-!
# Shared storage as plain storage

A slice of a shared array and the same slice of a plain one have the same cells in the same order
and one identity. They differ in how they get at the cells: in runs or one by one, by plain writes
or by compare-and-set. While nobody else writes, this shows nowhere: every step of a run has the
same answer or the same breach on either, and leaves the same memory.
-/

namespace WireView

variable {t : ItemKind}

def Memory.region (m : Memory t) (b : Nat) : Region := ⟨b, m.extent b⟩

theorem Memory.holds_region (m : Memory t) (b : Nat) : m.Holds (m.region b) := rfl

/-- The part of a bank that a view is made over: the members of a range, or all cells. -/
structure Place where
  bank : Nat
  range : Option IndexRange

namespace Place

def plain (c : Place) (m : Memory t) : Except Refusal View :=
  match c.range with
  | none => .ok (View.ofArray (m.region c.bank))
  | some range => View.slice (m.region c.bank) range

def shared (c : Place) (m : Memory t) : Except Refusal View :=
  match c.range with
  | none => .ok (View.ofShared (m.region c.bank))
  | some range => View.sharedSlice (m.region c.bank) range

end Place

/-- What may be asked of a view that belongs to a family. -/
inductive Command (ι : Type) (t : ItemKind) where
  | get (i : Nat)
  | put (i : Nat) (x : Item t)
  | fill (x : Option (Item t))
  | pack (start : Nat) (room : Option Nat)
  | unpack (start most : Nat) (window : List UInt8)
  | absorb (source : ι) (fold : Option (Fold (Item t)))

inductive Answer (t : ItemKind) where
  | item (x : Item t)
  | packed (packed : Packed)
  | taken (taken : Taken)
  | done

/-- A command to a view of a family, or to a folding of it. -/
structure Turn (ι : Type) (t : ItemKind) where
  view : ι
  fold : Option (Fold (Item t))
  command : Command ι t

section run

variable {ι β : Type}

/-- What an action results in, or its breach, and the memory that it leaves. -/
def settle (a : Action t β) (m : Memory t) : Except Breach β × Memory t :=
  match a m with
  | .ok x m' => (.ok x, m')
  | .error b m' => (.error b, m')

def Turn.act (views : ι → View) (c : Turn ι t) : Action t (Answer t) :=
  let p : Endpoint t := ⟨views c.view, c.fold⟩
  match c.command with
  | .get i => .item <$> p.get i
  | .put i x => (fun _ => .done) <$> p.put i x
  | .fill x => (fun _ => .done) <$> p.fill x
  | .pack start room => .packed <$> p.pack start room
  | .unpack start most window => .taken <$> p.unpack start most window
  | .absorb source fold => (fun _ => .done) <$> p.absorb ⟨views source, fold⟩

/-- The answers to commands, one after another, and the memory at the end. A breach ends its
command and not the run. -/
def serve (views : ι → View) : List (Turn ι t) → Memory t →
    List (Except Breach (Answer t)) × Memory t
  | [], m => ([], m)
  | c :: cs, m =>
    let first := settle (c.act views) m
    let later := serve views cs first.2
    (first.1 :: later.1, later.2)

end run

/-- Two views with the same cells in the same order and one identity. -/
structure Twin (v w : View) : Prop where
  length : w.length = v.length
  location : w.location = v.location
  identity : ∀ folding, w.identity folding = v.identity folding
  laid : ∀ {t : ItemKind} {m : Memory t}, v.Laid m → w.Laid m

/-- Two actions do the same with a memory, and keep its shape. -/
structure Agree {β : Type} (a b : Action t β) (m : Memory t) : Prop where
  same : a m = b m
  alike : (settle a m).2.Alike m

namespace Agree

variable {β γ : Type} {a b : Action t β} {m m' : Memory t}

theorem of_ok {x : β} (ha : a m = .ok x m') (hb : b m = .ok x m') (alike : m'.Alike m) :
    Agree a b m where
  same := ha.trans hb.symm
  alike := by
    rw [settle, ha]
    exact alike

theorem of_error {e : Breach} (ha : a m = .error e m) (hb : b m = .error e m) : Agree a b m where
  same := ha.trans hb.symm
  alike := by
    rw [settle, ha]
    exact .refl m

theorem map (f : β → γ) (agree : Agree a b m) : Agree (f <$> a) (f <$> b) m where
  same := by simp only [Functor.map, EStateM.map, agree.same]
  alike := by
    have memory : (settle (f <$> a) m).2 = (settle a m).2 := by
      simp only [settle, Functor.map, EStateM.map]
      cases a m with
      | ok x m' => rfl
      | error e m' => rfl
    rw [memory]
    exact agree.alike

end Agree

namespace Twin

variable {v w v' w' : View} {m : Memory t}

theorem refl (v : View) : Twin v v := ⟨rfl, rfl, fun _ => rfl, id⟩

theorem cells (twin : Twin v w) (start n : Nat) : w.cells start n = v.cells start n := by
  rw [View.cells, View.cells, twin.location]

theorem steps (twin : Twin v w) (twin' : Twin v' w') (start n : Nat) :
    w.steps w' start n = v.steps v' start n := by
  rw [View.steps, View.steps, twin.cells, twin'.cells]

theorem putAll (twin : Twin v w) (fold : Option (Fold (Item t))) (start : Nat)
    (xs : List (Item t)) (m : Memory t) :
    Endpoint.putAll ⟨w, fold⟩ start xs m = Endpoint.putAll ⟨v, fold⟩ start xs m := by
  simp only [Endpoint.putAll, twin.cells]

theorem length_endpoint (twin : Twin v w) (fold : Option (Fold (Item t))) :
    Endpoint.length ⟨w, fold⟩ = Endpoint.length ⟨v, fold⟩ := twin.length

section calls

variable (twin : Twin v w) (laid : v.Laid m) (fold : Option (Fold (Item t)))

include twin laid

theorem get (i : Nat) : Agree (Endpoint.get ⟨v, fold⟩ i) (Endpoint.get ⟨w, fold⟩ i) m := by
  have len := twin.length_endpoint fold
  rcases Nat.lt_or_ge i (Endpoint.length ⟨v, fold⟩) with inside | past
  · obtain ⟨x, hx⟩ := Memory.mem_iff.mp (laid.location_mem inside)
    have hx' : m.cell? (w.location i) = some x := twin.location ▸ hx
    exact .of_ok (Endpoint.get_eq inside hx) (Endpoint.get_eq (len ▸ inside) hx') (.refl m)
  · have other : Endpoint.get ⟨w, fold⟩ i m = _ := Endpoint.get_of_le (len ▸ past)
    rw [len] at other
    exact .of_error (Endpoint.get_of_le past) other

theorem put (i : Nat) (x : Item t) :
    Agree (Endpoint.put ⟨v, fold⟩ i x) (Endpoint.put ⟨w, fold⟩ i x) m := by
  have len := twin.length_endpoint fold
  rcases Nat.lt_or_ge i (Endpoint.length ⟨v, fold⟩) with inside | past
  · have other : Endpoint.put ⟨w, fold⟩ i x m = _ :=
      Endpoint.put_eq (twin.laid laid) (len ▸ inside) x
    simp only [twin.location] at other
    exact .of_ok (Endpoint.put_eq laid inside x) other (Memory.alike_merge fold m _ x)
  · have other : Endpoint.put ⟨w, fold⟩ i x m = _ := Endpoint.put_of_le (len ▸ past) x
    rw [len] at other
    exact .of_error (Endpoint.put_of_le past x) other

theorem fill (x : Option (Item t)) :
    Agree (Endpoint.fill ⟨v, fold⟩ x) (Endpoint.fill ⟨w, fold⟩ x) m := by
  have len := twin.length_endpoint fold
  have other : Endpoint.fill ⟨w, fold⟩ x m = _ := Endpoint.fill_eq (twin.laid laid) x
  rw [len, twin.putAll] at other
  exact .of_ok (Endpoint.fill_eq laid x) other (Endpoint.alike_putAll ⟨v, fold⟩ 0 _ m)

theorem pack (start : Nat) (room : Option Nat) :
    Agree (Endpoint.pack ⟨v, fold⟩ start room) (Endpoint.pack ⟨w, fold⟩ start room) m := by
  have len := twin.length_endpoint fold
  rcases Nat.lt_or_ge (Endpoint.length ⟨v, fold⟩) start with past | inside
  · have other : Endpoint.pack ⟨w, fold⟩ start room m = _ := Endpoint.pack_of_lt (len ▸ past) room
    rw [len] at other
    exact .of_error (Endpoint.pack_of_lt past room) other
  · have count : Endpoint.packable ⟨v, fold⟩ start room
        = Endpoint.packable ⟨w, fold⟩ start room := by
      simp only [Endpoint.packable, len]
    have other : Endpoint.pack ⟨w, fold⟩ start room m = _ :=
      Endpoint.pack_eq (twin.laid laid) (len ▸ inside) count
    simp only [Endpoint.contents, twin.cells] at other
    exact .of_ok (Endpoint.pack_eq laid inside rfl) other (.refl m)

theorem unpack (start most : Nat) (window : List UInt8) :
    Agree (Endpoint.unpack ⟨v, fold⟩ start most window)
      (Endpoint.unpack ⟨w, fold⟩ start most window) m := by
  have len := twin.length_endpoint fold
  rcases Nat.lt_or_ge (Endpoint.length ⟨v, fold⟩) start with past | inside
  · have other : Endpoint.unpack ⟨w, fold⟩ start most window m = _ :=
      Endpoint.unpack_of_lt (len ▸ past) most window
    rw [len] at other
    exact .of_error (Endpoint.unpack_of_lt past most window) other
  · have other : Endpoint.unpack ⟨w, fold⟩ start most window m = _ :=
      Endpoint.unpack_eq (twin.laid laid) (len ▸ inside) most window rfl
    rw [len, twin.putAll] at other
    exact .of_ok (Endpoint.unpack_eq laid inside most window rfl) other
      (Endpoint.alike_putAll ⟨v, fold⟩ start _ m)

/-- A copy does nothing on either side, or it takes the same steps, whatever the walk. -/
theorem absorb (twin' : Twin v' w') (laid' : v'.Laid m) (fold' : Option (Fold (Item t))) :
    Agree (Endpoint.absorb ⟨v, fold⟩ ⟨v', fold'⟩) (Endpoint.absorb ⟨w, fold⟩ ⟨w', fold'⟩) m := by
  have target : Endpoint.identity ⟨w, fold⟩ = Endpoint.identity ⟨v, fold⟩ := twin.identity _
  have source : Endpoint.identity ⟨w', fold'⟩ = Endpoint.identity ⟨v', fold'⟩ := twin'.identity _
  by_cases same : Endpoint.identity ⟨v', fold'⟩ = Endpoint.identity ⟨v, fold⟩
  · have same' : Endpoint.identity ⟨w', fold'⟩ = Endpoint.identity ⟨w, fold⟩ := by
      rw [source, target, same]
    exact .of_ok (View.absorb_of_same same) (View.absorb_of_same same') (.refl m)
  · have differ : Endpoint.identity ⟨w', fold'⟩ ≠ Endpoint.identity ⟨w, fold⟩ := by
      rw [source, target]
      exact same
    have other : Endpoint.absorb ⟨w, fold⟩ ⟨w', fold'⟩ m = _ :=
      absorb_eq (twin.laid laid) (twin'.laid laid') differ
    simp only [Endpoint.length, twin.length, twin'.length, twin'.steps twin] at other
    exact .of_ok (absorb_eq laid laid' same) other (Memory.alike_carryAll fold m _)

end calls

/-- Every turn has the same answer or breach on either family. -/
theorem act {ι : Type} {plain shared : ι → View} (twins : ∀ i, Twin (plain i) (shared i))
    (laid : ∀ i, (plain i).Laid m) (c : Turn ι t) : Agree (c.act plain) (c.act shared) m := by
  obtain ⟨i, fold, command⟩ := c
  have twin := twins i
  have here := laid i
  cases command with
  | get k => exact (twin.get here fold k).map _
  | put k x => exact (twin.put here fold k x).map _
  | fill x => exact (twin.fill here fold x).map _
  | pack start room => exact (twin.pack here fold start room).map _
  | unpack start most window => exact (twin.unpack here fold start most window).map _
  | absorb j fold' => exact (twin.absorb here fold (twins j) (laid j) fold').map _

theorem serve {ι : Type} {plain shared : ι → View} (twins : ∀ i, Twin (plain i) (shared i))
    (laid : ∀ i, (plain i).Laid m) (cs : List (Turn ι t)) :
    serve plain cs m = serve shared cs m := by
  induction cs generalizing m with
  | nil => rfl
  | cons c cs ih =>
    have agree := act twins laid c
    have first : settle (c.act plain) m = settle (c.act shared) m := by
      rw [settle, settle, agree.same]
    have later := ih fun i => (laid i).alike agree.alike
    rw [WireView.serve, WireView.serve, ← first, later]

end Twin

namespace View

theorem twin_slice (s : Region) (range : IndexRange) : Twin (array s range) (shared s range) where
  length := rfl
  location := rfl
  identity := fun _ => rfl
  laid := fun laid => ⟨laid.fits, laid.held⟩

theorem twin_whole (s : Region) : Twin (ofArray s) (ofShared s) := by
  rw [ofArray, ofShared]
  cases IndexRange.whole? s.extent with
  | none => exact .refl empty
  | some range => exact twin_slice s range

end View

namespace Place

variable {c : Place} {m : Memory t} {v w : View}

/-- A place is granted over shared storage when it is over plain storage. -/
theorem granted_iff (c : Place) (m : Memory t) :
    (∃ v, c.plain m = .ok v) ↔ ∃ w, c.shared m = .ok w := by
  obtain ⟨b, range⟩ := c
  cases range with
  | none => exact ⟨fun _ => ⟨_, rfl⟩, fun _ => ⟨_, rfl⟩⟩
  | some range =>
    constructor
    · rintro ⟨v, granted⟩
      obtain ⟨_, checked, -⟩ := ok_of_bind granted
      exact ⟨_, View.sharedSlice_of_fits (IndexRange.fits_of_check checked)⟩
    · rintro ⟨w, granted⟩
      obtain ⟨_, checked, -⟩ := ok_of_bind granted
      exact ⟨_, View.slice_of_fits (IndexRange.fits_of_check checked)⟩

theorem laid_plain (plain : c.plain m = .ok v) : v.Laid m := by
  obtain ⟨b, range⟩ := c
  cases range with
  | none =>
    cases plain
    exact View.laid_ofArray (m.holds_region b)
  | some range => exact View.laid_slice (m.holds_region b) plain

theorem twin (plain : c.plain m = .ok v) (shared : c.shared m = .ok w) : Twin v w := by
  obtain ⟨b, range⟩ := c
  cases range with
  | none =>
    cases plain
    cases shared
    exact View.twin_whole _
  | some range =>
    obtain ⟨_, -, plain⟩ := ok_of_bind plain
    obtain ⟨_, -, shared⟩ := ok_of_bind shared
    cases plain
    cases shared
    exact View.twin_slice _ range

end Place

/-- Views of shared arrays serve as those of plain arrays do. A family of places in a memory is
granted over shared storage when it is over plain storage, and then any run of commands, to the
views themselves or to foldings of them, has the same answers and breaches on both, one by one, and
leaves the same memory. -/
theorem shared_runs_as_plain {ι : Type} (places : ι → Place) (m : Memory t) :
    (∀ i, (∃ v, (places i).plain m = .ok v) ↔ ∃ w, (places i).shared m = .ok w) ∧
    ∀ plain shared : ι → View, (∀ i, (places i).plain m = .ok (plain i)) →
      (∀ i, (places i).shared m = .ok (shared i)) →
      ∀ cs : List (Turn ι t), serve shared cs m = serve plain cs m := by
  constructor
  · exact fun i => (places i).granted_iff m
  · intro plain shared hp hs cs
    have twins : ∀ i, Twin (plain i) (shared i) := fun i => Place.twin (hp i) (hs i)
    have laid : ∀ i, (plain i).Laid m := fun i => Place.laid_plain (hp i)
    exact (Twin.serve twins laid cs).symm

/-- Two overlapping slices of five items. One is copied onto the other, items from a window are
added to it, an index past its end is read, and the first is packed. -/
theorem shared_runs_as_plain_under_overlap :
    let low : IndexRange := ⟨0, 1, 4, by decide, by decide⟩
    let high : IndexRange := ⟨1, 1, 4, by decide, by decide⟩
    let m : Memory .int16 := ⟨#[#[1, 2, 3, 4, 5]]⟩
    let places : Bool → Place := fun upper => ⟨0, some (if upper then high else low)⟩
    let plain : Bool → View := fun upper => .array ⟨0, 5⟩ (if upper then high else low)
    let shared : Bool → View := fun upper => .shared ⟨0, 5⟩ (if upper then high else low)
    let turns : List (Turn Bool .int16) :=
      [⟨true, none, .absorb false none⟩, ⟨true, some ⟨"sum", (· + ·)⟩, .unpack 2 9 [0, 7, 0, 8, 0]⟩,
        ⟨true, none, .get 4⟩, ⟨false, none, .pack 3 none⟩]
    (∀ i, (places i).plain m = .ok (plain i)) ∧ (∀ i, (places i).shared m = .ok (shared i)) ∧
      serve shared turns m = serve plain turns m ∧
      (serve shared turns m).2.banks = #[#[1, 1, 1, 8, 9]] := by
  intro low high m places plain shared turns
  have hp : ∀ i, (places i).plain m = .ok (plain i) := by
    intro i
    cases i <;> rfl
  have hs : ∀ i, (places i).shared m = .ok (shared i) := by
    intro i
    cases i <;> rfl
  have same := (shared_runs_as_plain places m).2 plain shared hp hs turns
  refine ⟨hp, hs, same, ?_⟩
  decide +kernel

end WireView
