import WireView.Proofs.Object.Framing

/-!
# Objects on the way between views

The windows that a message is packed into are cuts of it, whatever their room. The pieces that it
arrives in wait for the last byte, and what comes then is the list of the objects, where decoding
undoes encoding. Writing that list is copying the source, and folding it in is folding the source
in: so a transfer leaves the objects that a local copy leaves.
-/

namespace WireView

def Codec.Restores {α : Type} (codec : Codec α) (xs : List α) : Prop :=
  ∀ payload, codec.encode xs = .ok payload → codec.decode payload = .ok xs

namespace ObjectView

variable {α : Type} {codec : Codec α} {v w : ObjectView α} {fold : Option (α → α → α)}
variable {payload bytes : List UInt8} {pieces : List (List UInt8)}

/-- Packs the message into windows, one after another, each from where the last one ended. -/
def packWindows (codec : Codec α) : List (Option Nat) → Nat → Step α (List Packed)
  | [], _ => pure []
  | room :: rooms, offset => do
    let packed ← pack codec offset room
    let more ← packWindows codec rooms (offset + packed.count)
    return packed :: more

/-- The bytes that windows have room for, a window without a limit for all of a message. -/
def space (total : Nat) (rooms : List (Option Nat)) : Nat :=
  (rooms.map fun room => room.getD total).sum

theorem portion_eq {offset : Nat} (inside : offset ≤ bytes.length) (room : Option Nat) :
    let written := (bytes.drop offset).take (room.getD bytes.length)
    portion bytes offset room = .ok ⟨written.length, written⟩ := by
  intro written
  have same : room.elim (bytes.drop offset) (fun n => (bytes.drop offset).take n) = written := by
    cases room with
    | none =>
      have all : (bytes.drop offset).length ≤ bytes.length := by
        rw [List.length_drop]
        exact Nat.sub_le _ _
      exact (List.take_of_length_le all).symm
    | some n => rfl
  rw [portion, if_neg (Nat.not_lt.mpr inside), same]

theorem Current.pack_eq {offset : Nat} (current : v.Current codec)
    (encoded : v.message codec = .ok bytes) (inside : offset ≤ bytes.length) (room : Option Nat) :
    let written := (bytes.drop offset).take (room.getD bytes.length)
    pack codec offset room v = .ok ⟨written.length, written⟩ { v with cached := some bytes } := by
  intro written
  rw [ObjectView.pack_eq, current.currentMessage_eq encoded]
  dsimp only
  rw [portion_eq inside room]

/-- After the bytes taken come those that are left, also when fewer were there to take. -/
theorem drop_length_take (n : Nat) (l : List UInt8) : l.drop (l.take n).length = l.drop n := by
  rw [List.length_take]
  rcases Nat.le_total n l.length with within | beyond
  · rw [Nat.min_eq_left within]
  · rw [Nat.min_eq_right beyond, List.drop_length, List.drop_of_length_le beyond]

/-- Windows take the message as far as they have room, and change no object of its view. -/
theorem packWindows_eq (rooms : List (Option Nat)) {offset : Nat} (current : v.Current codec)
    (encoded : v.message codec = .ok bytes) (inside : offset ≤ bytes.length) :
    ∃ sent kept, packWindows codec rooms offset v = .ok sent { v with cached := kept } ∧
      sent.flatMap Packed.bytes = (bytes.drop offset).take (space bytes.length rooms) := by
  induction rooms generalizing v offset with
  | nil => exact ⟨[], v.cached, rfl, rfl⟩
  | cons room rooms ih =>
    let written := (bytes.drop offset).take (room.getD bytes.length)
    have first : pack codec offset room v = .ok ⟨written.length, written⟩ _ :=
      current.pack_eq encoded inside room
    have size : written.length ≤ bytes.length - offset := by
      rw [List.length_take, List.length_drop]
      exact Nat.min_le_right _ _
    have inside' : offset + written.length ≤ bytes.length := by omega
    have keeps := (Change.encodes encoded).current current
    obtain ⟨sent, kept, later, rest⟩ := ih keeps encoded inside'
    refine ⟨⟨written.length, written⟩ :: sent, kept, ?_, ?_⟩
    · rw [packWindows, bind_of_ok first, bind_of_ok later]
      rfl
    · have cut : space bytes.length (room :: rooms)
          = room.getD bytes.length + space bytes.length rooms := rfl
      rw [List.flatMap_cons, rest, cut, List.take_add, ← List.drop_drop, drop_length_take]

/-- Hands pieces of a message to a view, or to a folding of it, one call a piece. -/
def acceptAll (codec : Codec α) (fold : Option (α → α → α)) (v : ObjectView α) :
    List (List UInt8) → ObjectView α × List Receipt
  | [] => (v, [])
  | piece :: pieces =>
    let (w, receipt) := v.accept codec fold piece
    let (last, receipts) := acceptAll codec fold w pieces
    (last, receipt :: receipts)

theorem acceptAll_cons {piece : List UInt8} {receipt : Receipt}
    (h : v.accept codec fold piece = (w, receipt)) :
    acceptAll codec fold v (piece :: pieces) =
      ((acceptAll codec fold w pieces).1, receipt :: (acceptAll codec fold w pieces).2) := by
  rw [acceptAll, h]

def waiting : Receipt := ⟨.ok none, []⟩

theorem accept_empty (codec : Codec α) (fold : Option (α → α → α)) (idle : v.gathered = []) :
    v.accept codec fold [] = (v, waiting) := by
  have none : v.gathered ++ [] = [] := by rw [idle, List.append_nil]
  have held : v.gathered.length ≤ announced [] := by
    rw [idle]
    exact Nat.zero_le _
  have same : { v with gathered := [] } = v := by rw [← idle]
  rw [accept_eq codec fold none held, if_pos (by decide), same]
  rfl

/-- Nothing comes of empty pieces between messages. -/
theorem acceptAll_empty (codec : Codec α) (fold : Option (α → α → α)) (idle : v.gathered = [])
    (nothing : ∀ piece ∈ pieces, piece = []) :
    acceptAll codec fold v pieces = (v, pieces.map fun _ => waiting) := by
  induction pieces with
  | nil => rfl
  | cons piece pieces ih =>
    obtain ⟨rfl, others⟩ := List.forall_mem_cons.mp nothing
    rw [acceptAll_cons (accept_empty codec fold idle), ih others]
    rfl

/-- The pieces of a message wait up to the last that is not empty, and that one completes it. -/
theorem acceptAll_message (codec : Codec α) (fold : Option (α → α → α))
    (short : payload.length ≤ maxPayload)
    (inside : v.gathered.length < (framed payload).length)
    (whole : v.gathered ++ pieces.flatten = framed payload) :
    ∃ before last after, pieces = before ++ last :: after ∧ last ≠ [] ∧
      (∀ piece ∈ after, piece = []) ∧
      acceptAll codec fold v pieces =
        ((v.complete codec fold payload []).1, before.map (fun _ => waiting) ++
          (v.complete codec fold payload []).2 :: after.map fun _ => waiting) := by
  induction pieces generalizing v with
  | nil =>
    rw [← whole, List.flatten_nil, List.append_nil] at inside
    exact absurd inside (Nat.lt_irrefl _)
  | cons piece pieces ih =>
    rw [List.flatten_cons, ← List.append_assoc] at whole
    by_cases within : (v.gathered ++ piece).length < (framed payload).length
    · have unread := ne_nil_of_length_lt whole within
      obtain ⟨before, last, after, rfl, nonempty, nothing, later⟩ :=
        ih (v := { v with gathered := v.gathered ++ piece }) within whole
      refine ⟨piece :: before, last, after, rfl, nonempty, nothing, ?_⟩
      rw [acceptAll_cons (accept_of_short short whole unread), later]
      rfl
    · have end' : pieces.flatten = [] := by
        have size := congrArg List.length whole
        rw [List.length_append] at size
        exact List.eq_nil_of_length_eq_zero (by omega)
      rw [end', List.append_nil] at whole
      have nothing := List.flatten_eq_nil_iff.mp end'
      have done : v.accept codec fold (piece ++ []) = v.complete codec fold payload [] :=
        accept_of_last short whole
      rw [List.append_nil] at done
      have idle := gathered_complete codec fold v payload []
      refine ⟨[], piece, pieces, rfl, ne_nil_of_length_lt whole inside, nothing, ?_⟩
      rw [acceptAll_cons (done.trans (Prod.eta _).symm), acceptAll_empty codec fold idle nothing]
      rfl

/-- A transfer of objects leaves what a local copy leaves. Windows that have room for the message
hold the same bytes, whatever their room and however many they are. However these bytes are cut
into pieces, the destination answers once that it has objects, on the last piece that is not empty,
and its array is then the one that copying the source leaves, or folding the source in. -/
theorem transfer_leaves_local_copy (codec : Codec α) {source destination : ObjectView α}
    (reached : Reached codec source) (idle : destination.gathered = [])
    (restores : codec.Restores source.toList)
    (encoded : codec.encode source.toList = .ok payload) (short : payload.length ≤ maxPayload)
    (fold : Option (α → α → α)) :
    let message := framed payload
    (∀ rooms, ∃ sent left, packWindows codec rooms 0 source = .ok sent left ∧
      left.items = source.items ∧
      sent.flatMap Packed.bytes = message.take (space message.length rooms) ∧
      (message.length ≤ space message.length rooms → sent.flatMap Packed.bytes = message)) ∧
    ∀ pieces : List (List UInt8), pieces.flatten = message →
      ∃ before last after received, pieces = before ++ last :: after ∧ last ≠ [] ∧
        (∀ piece ∈ after, piece = []) ∧
        acceptAll codec fold destination pieces = (received,
          before.map (fun _ => ⟨.ok none, []⟩) ++
            ⟨.ok (some (min source.length destination.length)), []⟩ ::
            after.map fun _ => ⟨.ok none, []⟩) ∧
        received.items = (destination.absorbBy fold source).items ∧
        received.range = destination.range ∧ received.gathered = [] := by
  intro message
  constructor
  · intro rooms
    have whole : source.message codec = .ok message := by
      rw [ObjectView.message, encoded]
      exact frame_eq short
    obtain ⟨sent, kept, packed, bytes⟩ :=
      packWindows_eq rooms reached.current whole (Nat.zero_le _)
    rw [List.drop_zero] at bytes
    refine ⟨sent, _, packed, rfl, bytes, ?_⟩
    intro enough
    rw [bytes, List.take_of_length_le enough]
  · intro pieces cut
    have inside : destination.gathered.length < message.length := by
      rw [idle]
      exact List.length_pos_of_ne_nil (framed_ne_nil payload)
    have stream : destination.gathered ++ pieces.flatten = message := by
      rw [idle, cut]
      rfl
    obtain ⟨before, last, after, split, nonempty, nothing, all⟩ :=
      acceptAll_message codec fold short inside stream
    have count : min destination.length source.toList.length
        = min source.length destination.length := by
      rw [length_toList reached.current.fits, Nat.min_comm]
    rw [complete_of_ok (restores payload encoded), count] at all
    exact ⟨before, last, after, _, split, nonempty, nothing, all,
      (items_absorbBy destination fold source).symm, rfl, rfl⟩

/-- The outer two of three texts go to an array of three, through windows and in pieces that do not
match, and are appended to the first two texts there. -/
theorem transfer_leaves_local_copy_of_texts :
    let codec := Record.text.format.codec
    let source : ObjectView String :=
      { items := #["x", "-", "yz"], range := some ⟨0, 2, 2, by decide, by decide⟩ }
    let destination : ObjectView String := whole #["a", "b", "c"]
    let payload : List UInt8 :=
      [2, 0, 0, 0, 0, 0, 0, 0, 1, 0, 0, 0, 0, 0, 0, 0, 120, 2, 0, 0, 0, 0, 0, 0, 0, 121, 122]
    let pieces : List (List UInt8) :=
      [[0, 0, 0], [], [27, 2, 0, 0, 0, 0, 0, 0, 0, 1, 0, 0, 0, 0, 0, 0, 0, 120, 2],
        [0, 0, 0, 0, 0, 0, 0, 121, 122], []]
    Reached codec source ∧ destination.gathered = [] ∧ codec.Restores source.toList ∧
      codec.encode source.toList = .ok payload ∧ payload.length ≤ maxPayload ∧
      (∃ sent left, packWindows codec [some 2, some 0, some 3, none] 0 source = .ok sent left ∧
        sent.flatMap Packed.bytes = framed payload) ∧
      ∃ before last after received, pieces = before ++ last :: after ∧ last ≠ [] ∧
        (∀ piece ∈ after, piece = []) ∧
        acceptAll codec (some (· ++ ·)) destination pieces = (received,
          before.map (fun _ => ⟨.ok none, []⟩) ++
            ⟨.ok (some 2), []⟩ :: after.map fun _ => ⟨.ok none, []⟩) ∧
        received.items = #["ax", "byz", "c"] := by
  intro codec source destination payload pieces
  have reached : Reached codec source :=
    ⟨#["x", "-", "yz"], some ⟨0, 2, 2, by decide, by decide⟩, source, [], rfl, rfl⟩
  have encoded : codec.encode source.toList = .ok payload := by decide +kernel
  have restores : codec.Restores source.toList := by
    intro bytes h
    rw [encoded] at h
    cases h
    decide +kernel
  have short : payload.length ≤ maxPayload := by decide
  have idle : destination.gathered = [] := rfl
  obtain ⟨packs, receives⟩ :=
    transfer_leaves_local_copy codec reached idle restores encoded short (some (· ++ ·))
  refine ⟨reached, idle, restores, encoded, short, ?_, ?_⟩
  · obtain ⟨sent, left, packed, -, -, whole⟩ := packs [some 2, some 0, some 3, none]
    exact ⟨sent, left, packed, whole (by decide)⟩
  · have cut : pieces.flatten = framed payload := by decide +kernel
    have folded : (destination.absorbBy (some (· ++ ·)) source).items = #["ax", "byz", "c"] := by
      decide +kernel
    obtain ⟨before, last, after, received, split, nonempty, nothing, all, items, -⟩ :=
      receives pieces cut
    exact ⟨before, last, after, received, split, nonempty, nothing, all, items.trans folded⟩

end ObjectView

end WireView
