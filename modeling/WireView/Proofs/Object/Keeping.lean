import WireView.Object.Record
import WireView.Proofs.Object.Writing

/-!
# The message that a view keeps

A view of objects keeps its message once it has been encoded. Whatever is called on a view, or on a
folding of it, the message it keeps stays the one of its present objects: a call that writes objects
drops it, and a call that only receives bytes, or none, changes no object. So packing never shows
whether the message was kept.
-/

namespace WireView

/-- A payload behind its length. -/
def framed (payload : List UInt8) : List UInt8 := bigEndian headerWidth payload.length ++ payload

theorem frame_eq {payload : List UInt8} (short : payload.length ≤ maxPayload) :
    frame payload = .ok (framed payload) := if_pos short

theorem frame_eq_ok {payload bytes : List UInt8} (h : frame payload = .ok bytes) :
    payload.length ≤ maxPayload ∧ bytes = framed payload := by
  by_cases short : payload.length ≤ maxPayload
  · rw [frame_eq short] at h
    cases h
    exact ⟨short, rfl⟩
  · rw [frame, if_neg short] at h
    cases h

namespace ObjectView

variable {α β : Type} {codec : Codec α} {v w made : ObjectView α} {items : Array α}
variable {place : Option IndexRange}

def answer (step : Step α β) (v : ObjectView α) : Except Fault β :=
  match step v with
  | .ok x _ => .ok x
  | .error e _ => .error e

def after (step : Step α β) (v : ObjectView α) : ObjectView α :=
  match step v with
  | .ok _ w => w
  | .error _ w => w

def make (items : Array α) : Option IndexRange → Except Refusal (ObjectView α)
  | none => .ok (whole items)
  | some range => slice items range

/-- A call on a view of objects, or on the folding of it by a function. -/
inductive Operation (α : Type) where
  | put (fold : Option (α → α → α)) (i : Nat) (x : α)
  | fill (x : α)
  | absorb (fold : Option (α → α → α)) (source : ObjectView α)
  | accept (fold : Option (α → α → α)) (window : List UInt8)
  | forget
  | messageLength
  | pack (offset : Nat) (room : Option Nat)

/-- The view that a call leaves. A put past the end changes nothing. -/
def Operation.apply (codec : Codec α) (o : Operation α) (v : ObjectView α) : ObjectView α :=
  match o with
  | put fold i x => (v.put fold i x).toOption.getD v
  | fill x => v.fill x
  | absorb fold source => v.absorbBy fold source
  | accept fold window => (v.accept codec fold window).1
  | forget => v.forget
  | messageLength => after (ObjectView.messageLength codec) v
  | pack offset room => after (ObjectView.pack codec offset room) v

def run (codec : Codec α) (os : List (Operation α)) (v : ObjectView α) : ObjectView α :=
  os.foldl (fun v o => o.apply codec v) v

/-- What a call can do to a view: it gathers bytes, or it keeps the message that it has encoded, or
it writes objects and drops the message of the former ones. -/
inductive Change (codec : Codec α) (v : ObjectView α) : ObjectView α → Prop where
  | gathers (gathered : List UInt8) : Change codec v { v with gathered }
  | encodes {bytes : List UInt8} (encoded : v.message codec = .ok bytes) :
      Change codec v { v with cached := some bytes }
  | writes {w : ObjectView α} (alike : v.Alike w) (dropped : w.cached = none) : Change codec v w

theorem Change.refl (codec : Codec α) (v : ObjectView α) : Change codec v v := .gathers v.gathered

theorem Change.alike (change : Change codec v w) : v.Alike w := by
  cases change with
  | gathers gathered => exact ⟨rfl, rfl⟩
  | encodes encoded => exact ⟨rfl, rfl⟩
  | writes alike dropped => exact alike

theorem change_put (codec : Codec α) (v : ObjectView α) (fold : Option (α → α → α)) (i : Nat)
    (x : α) : Change codec v ((v.put fold i x).toOption.getD v) := by
  rw [put]
  cases v.get i with
  | error b => exact .refl codec v
  | ok y => exact .writes ⟨rfl, Array.size_modify⟩ rfl

/-- Folding in the objects of a view drops the message unless there is no object to fold in. -/
theorem change_absorbWith (codec : Codec α) (v : ObjectView α) (f : α → α → α)
    (source : ObjectView α) : Change codec v (v.absorbWith f source) := by
  have alike := alike_absorbWith v f source
  rw [absorbWith] at alike ⊢
  generalize (List.range v.length).zip source.toList = pairs at alike ⊢
  cases pairs with
  | nil => exact .refl codec v
  | cons p ps => exact .writes alike ((foldl_update f ps _).2.1 rfl)

theorem change_accept (codec : Codec α) (fold : Option (α → α → α)) (v : ObjectView α)
    (window : List UInt8) : Change codec v (v.accept codec fold window).1 := by
  rw [accept]
  generalize gather v.gathered (headerWidth - v.gathered.length) window = header
  obtain ⟨header, later⟩ := header
  dsimp only
  split
  · exact .gathers header
  · generalize gather header _ later = message
    obtain ⟨message, rest⟩ := message
    dsimp only
    split
    · exact .gathers message
    · split
      · exact .gathers []
      · have forgotten : v.Alike v.forget := ⟨rfl, rfl⟩
        exact .writes (forgotten.trans (alike_updateFront v.forget (writing fold) _)) rfl

theorem change_currentMessage (codec : Codec α) (v : ObjectView α) :
    Change codec v (after (currentMessage codec) v) := by
  simp only [after, currentMessage]
  cases v.cached with
  | some bytes => exact .refl codec v
  | none =>
    cases encoded : v.message codec with
    | error e => exact .refl codec v
    | ok bytes => exact .encodes encoded

/-- A view fits its array, and a message that it keeps is the one of its objects. -/
structure Current (codec : Codec α) (v : ObjectView α) : Prop where
  fits : v.Fits
  kept : ∀ bytes ∈ v.cached, v.message codec = .ok bytes

theorem Current.of_dropped (fits : v.Fits) (dropped : v.cached = none) : v.Current codec where
  fits := fits
  kept := by
    intro bytes kept
    rw [dropped] at kept
    cases kept

/-- A message is kept only for the objects that it was encoded from. -/
theorem Change.current (change : Change codec v w) (current : v.Current codec) :
    w.Current codec := by
  cases change with
  | gathers gathered => exact ⟨current.fits, current.kept⟩
  | encodes encoded =>
    refine ⟨current.fits, ?_⟩
    rintro _ ⟨⟩
    exact encoded
  | writes alike dropped => exact .of_dropped (alike.fits current.fits) dropped

/-- A view whose objects can be encoded gives their message, and then keeps it. -/
theorem Current.currentMessage_eq {bytes : List UInt8} (current : v.Current codec)
    (encoded : v.message codec = .ok bytes) :
    ObjectView.currentMessage codec v = .ok bytes { v with cached := some bytes } := by
  cases v with
  | mk items range cached gathered =>
    cases cached with
    | none => rw [ObjectView.currentMessage, encoded]
    | some kept =>
      have same := current.kept kept rfl
      rw [encoded] at same
      cases same
      rfl

/-- A view that keeps no message but the present one answers by the present one. -/
theorem answer_currentMessage (current : v.Current codec) :
    answer (currentMessage codec) v =
      (v.message codec).mapError fun e => .refused (.unwritable e) := by
  unfold answer currentMessage
  cases kept : v.cached with
  | some bytes =>
    rw [current.kept bytes kept]
    rfl
  | none =>
    cases v.message codec with
    | error e => rfl
    | ok bytes => rfl

/-- The bytes that a window takes of a message from an offset on. -/
def portion (bytes : List UInt8) (offset : Nat) (room : Option Nat) : Except Fault Packed :=
  if bytes.length < offset then .error (.breached (.offset offset bytes.length))
  else
    let written := room.elim (bytes.drop offset) fun n => (bytes.drop offset).take n
    .ok ⟨written.length, written⟩

/-- Packing takes a portion of the message, and leaves the view as encoding the message does. -/
theorem pack_eq (codec : Codec α) (v : ObjectView α) (offset : Nat) (room : Option Nat) :
    pack codec offset room v =
      match currentMessage codec v with
      | .error e w => .error e w
      | .ok bytes w =>
        match portion bytes offset room with
        | .error e => .error e w
        | .ok packed => .ok packed w := by
  cases message : currentMessage codec v with
  | error e w => exact bind_of_error message
  | ok bytes w =>
    rw [pack, bind_of_ok message]
    by_cases past : bytes.length < offset
    · simp only [portion, if_pos past]
      rfl
    · simp only [portion, if_neg past]
      rfl

theorem answer_pack (codec : Codec α) (v : ObjectView α) (offset : Nat) (room : Option Nat) :
    answer (pack codec offset room) v =
      answer (currentMessage codec) v >>= fun bytes => portion bytes offset room := by
  simp only [answer, pack_eq]
  cases currentMessage codec v with
  | error e w => rfl
  | ok bytes w =>
    change _ = portion bytes offset room
    dsimp only
    cases portion bytes offset room with
    | error e => rfl
    | ok packed => rfl

theorem after_pack (codec : Codec α) (v : ObjectView α) (offset : Nat) (room : Option Nat) :
    after (pack codec offset room) v = after (currentMessage codec) v := by
  simp only [after, pack_eq]
  cases currentMessage codec v with
  | error e w => rfl
  | ok bytes w =>
    dsimp only
    cases portion bytes offset room with
    | error e => rfl
    | ok packed => rfl

theorem messageLength_eq (codec : Codec α) (v : ObjectView α) :
    messageLength codec v =
      match currentMessage codec v with
      | .error e w => .error e w
      | .ok bytes w => .ok bytes.length w := by
  simp only [messageLength, Functor.map, EStateM.map]
  cases currentMessage codec v with
  | error e w => rfl
  | ok bytes w => rfl

theorem answer_messageLength (codec : Codec α) (v : ObjectView α) :
    answer (messageLength codec) v = List.length <$> answer (currentMessage codec) v := by
  simp only [answer, messageLength_eq]
  cases currentMessage codec v with
  | error e w => rfl
  | ok bytes w => rfl

theorem after_messageLength (codec : Codec α) (v : ObjectView α) :
    after (messageLength codec) v = after (currentMessage codec) v := by
  simp only [after, messageLength_eq]
  cases currentMessage codec v with
  | error e w => rfl
  | ok bytes w => rfl

theorem change_apply (codec : Codec α) (v : ObjectView α) (o : Operation α) :
    Change codec v (o.apply codec v) := by
  cases o with
  | put fold i x => exact change_put codec v fold i x
  | fill x => exact .writes (alike_updateFront v (fun _ y => y) (List.replicate v.length x)) rfl
  | absorb fold source =>
    cases fold with
    | none => exact .writes (alike_updateFront v (fun _ x => x) source.toList) rfl
    | some f => exact change_absorbWith codec v f source
  | accept fold window => exact change_accept codec fold v window
  | forget => exact .gathers []
  | messageLength =>
    rw [Operation.apply, after_messageLength]
    exact change_currentMessage codec v
  | pack offset room =>
    rw [Operation.apply, after_pack]
    exact change_currentMessage codec v

/-- Calls change neither the range nor the number of objects, and keep no message but the present
one. -/
theorem run_preserves (os : List (Operation α)) (current : v.Current codec) :
    (run codec os v).Current codec ∧ v.Alike (run codec os v) := by
  induction os generalizing v with
  | nil => exact ⟨current, .refl v⟩
  | cons o os ih =>
    have change := change_apply codec v o
    obtain ⟨final, alike⟩ := ih (change.current current)
    exact ⟨final, change.alike.trans alike⟩

theorem fits_of_make (h : make items place = .ok made) : made.Fits := by
  cases place with
  | none =>
    cases h
    intro r whole
    exact r.fits_of_whole? whole
  | some range =>
    obtain ⟨_, checked, h⟩ := ok_of_bind h
    cases h
    rintro r ⟨⟩
    exact IndexRange.fits_of_check checked

theorem current_of_make (h : make items place = .ok made) : made.Current codec := by
  refine .of_dropped (fits_of_make h) ?_
  cases place with
  | none =>
    cases h
    rfl
  | some range =>
    obtain ⟨_, -, h⟩ := ok_of_bind h
    cases h
    rfl

/-- A view of other objects in the same range is made of an array of the same size. -/
theorem make_of_alike (h : make items place = .ok made) (alike : made.Alike w) :
    make w.items place = .ok { items := w.items, range := w.range } := by
  cases place with
  | none =>
    cases h
    have range : IndexRange.whole? w.items.size = w.range := by
      rw [alike.size, alike.range]
      rfl
    rw [make, whole, range]
  | some range =>
    obtain ⟨_, checked, h⟩ := ok_of_bind h
    cases h
    rw [make, slice, alike.size, checked, alike.range]
    rfl

def Reached (codec : Codec α) (v : ObjectView α) : Prop :=
  ∃ items place made os, make items place = .ok made ∧ run codec os made = v

theorem Reached.current (reached : Reached codec v) : v.Current codec := by
  obtain ⟨items, place, made, os, h, rfl⟩ := reached
  exact (run_preserves os (current_of_make h)).1

/-- A message that a view keeps, after any calls, is that of its present objects in order. So
packing and the length of the message answer as for a view just made of these objects. -/
theorem kept_message_is_current (codec : Codec α) (h : make items place = .ok made)
    (os : List (Operation α)) :
    let v := run codec os made
    (∀ bytes ∈ v.cached, ∃ xs payload, (List.range v.length).mapM v.get = .ok xs ∧
      codec.encode xs = .ok payload ∧ payload.length ≤ maxPayload ∧
      bytes = bigEndian headerWidth payload.length ++ payload) ∧
    ∃ fresh, make v.items place = .ok fresh ∧ fresh.range = v.range ∧
      (∀ offset room,
        answer (pack codec offset room) v = answer (pack codec offset room) fresh) ∧
      answer (messageLength codec) v = answer (messageLength codec) fresh := by
  intro v
  have start : made.Current codec := current_of_make h
  obtain ⟨current, alike⟩ := run_preserves os start
  have again := make_of_alike h alike
  have same : answer (currentMessage codec) v
      = answer (currentMessage codec) { items := v.items, range := v.range } := by
    rw [answer_currentMessage current, answer_currentMessage (current_of_make again)]
    rfl
  constructor
  · intro bytes kept
    obtain ⟨payload, encoded, h⟩ := ok_of_bind (current.kept bytes kept)
    obtain ⟨short, whole⟩ := frame_eq_ok h
    exact ⟨v.toList, payload, mapM_get current.fits, encoded, short, whole⟩
  · refine ⟨_, again, rfl, ?_, ?_⟩
    · intro offset room
      rw [answer_pack, answer_pack, same]
    · rw [answer_messageLength, answer_messageLength, same]

/-- Of three bytes the outer two are viewed. The message is encoded, one of them is put, and the
message is encoded again while another one is arriving. -/
theorem kept_message_is_current_after_put :
    let codec := (Record.word 8 1).format.codec
    let range : IndexRange := ⟨0, 2, 2, by decide, by decide⟩
    let made : ObjectView (BitVec 8) := { items := #[1, 2, 3], range := some range }
    let v := run codec [.pack 0 (some 3), .put none 0 5, .accept none [0, 0], .messageLength] made
    let message : List UInt8 := [0, 0, 0, 10, 2, 0, 0, 0, 0, 0, 0, 0, 5, 3]
    make #[1, 2, 3] (some range) = .ok made ∧ message ∈ v.cached ∧
      (∃ xs payload, (List.range v.length).mapM v.get = .ok xs ∧
        codec.encode xs = .ok payload ∧ message = bigEndian headerWidth payload.length ++ payload) ∧
      ∃ fresh, make v.items (some range) = .ok fresh ∧
        answer (pack codec 12 none) fresh = .ok ⟨2, [5, 3]⟩ ∧
        answer (messageLength codec) fresh = .ok 14 := by
  intro codec range made v message
  have h : make #[1, 2, 3] (some range) = .ok made := rfl
  have kept : v.cached = some message := by decide +kernel
  obtain ⟨each, fresh, again, -, packed, whole⟩ := kept_message_is_current codec h
    [.pack 0 (some 3), .put none 0 5, .accept none [0, 0], .messageLength]
  obtain ⟨xs, payload, read, encoded, -, framed⟩ := each message kept
  have portion : answer (pack codec 12 none) v = .ok ⟨2, [5, 3]⟩ := by decide +kernel
  have length : answer (messageLength codec) v = .ok 14 := by decide +kernel
  exact ⟨h, kept, ⟨xs, payload, read, encoded, framed⟩, fresh, again,
    (packed 12 none).symm.trans portion, whole.symm.trans length⟩

end ObjectView

end WireView
