import WireView.Proofs.Bytes
import WireView.Proofs.Object.Keeping

/-!
# Messages in a cut stream

The bytes that a view has gathered and those of a window are one string, and what a window brings
depends on that string alone: either it is short of a message, and all of it is gathered, or its
first message is decoded and the bytes after it are left in the window. So a stream of messages is
received message by message, however it is cut into windows, and a message that cannot be decoded
does not reach the next one.
-/

namespace WireView

@[simp] theorem length_framed (payload : List UInt8) :
    (framed payload).length = headerWidth + payload.length := by
  rw [framed, List.length_append, length_bigEndian]

theorem framed_ne_nil (payload : List UInt8) : framed payload ≠ [] := by
  have positive : 0 < (framed payload).length := by
    rw [length_framed]
    exact Nat.add_pos_left (by decide) _
  exact List.ne_nil_of_length_pos positive

/-- The length of the message that begins a string of bytes, as its header announces it. -/
def announced (bytes : List UInt8) : Nat := headerWidth + ofBigEndian (bytes.take headerWidth)

theorem announced_framed {payload : List UInt8} (short : payload.length ≤ maxPayload)
    (later : List UInt8) : announced (framed payload ++ later) = (framed payload).length := by
  have header : (framed payload ++ later).take headerWidth
      = bigEndian headerWidth payload.length := by
    rw [framed, List.append_assoc]
    exact List.take_left' (length_bigEndian _ _)
  have inside : payload.length < 256 ^ headerWidth := Nat.lt_succ_of_le short
  rw [announced, header, ofBigEndian_bigEndian, Nat.mod_eq_of_lt inside, length_framed]

theorem drop_framed (payload : List UInt8) : (framed payload).drop headerWidth = payload :=
  List.drop_left' (length_bigEndian _ _)

/-- Bytes that end within a message are fewer than they announce: the header is cut, or is there. -/
theorem lt_announced {payload bytes more : List UInt8} (short : payload.length ≤ maxPayload)
    (within : bytes ++ more = framed payload) (unread : more ≠ []) :
    bytes.length < announced bytes := by
  by_cases header : headerWidth ≤ bytes.length
  · have same : announced bytes = announced (framed payload ++ []) := by
      rw [announced, announced, List.append_nil, ← within, List.take_append_of_le_length header]
    have positive := List.length_pos_of_ne_nil unread
    rw [same, announced_framed short, ← within, List.length_append]
    omega
  · exact Nat.lt_of_lt_of_le (Nat.lt_of_not_le header) (Nat.le_add_right _ _)

namespace ObjectView

variable {α : Type} {codec : Codec α} {v w : ObjectView α} {fold : Option (α → α → α)}
variable {payload window : List UInt8} {payloads windows : List (List UInt8)}

/-- Gathering up to a size cuts the string of all bytes there, or where the gathered ones end. -/
theorem gather_eq (gathered : List UInt8) (size : Nat) (window : List UInt8) :
    gather gathered (size - gathered.length) window =
      ((gathered ++ window).take (max gathered.length size),
        (gathered ++ window).drop (max gathered.length size)) := by
  have beyond : max gathered.length size - gathered.length = size - gathered.length := by omega
  rw [gather, List.take_append, List.drop_append, beyond,
    List.take_of_length_le (Nat.le_max_left _ _), List.drop_of_length_le (Nat.le_max_left _ _),
    List.nil_append]

def complete (codec : Codec α) (fold : Option (α → α → α)) (v : ObjectView α)
    (payload rest : List UInt8) : ObjectView α × Receipt :=
  match codec.decode payload with
  | .error e => (v.forget, ⟨.error e, rest⟩)
  | .ok xs =>
    (v.forget.updateFront (writing fold) xs, ⟨.ok (some (min v.length xs.length)), rest⟩)

theorem complete_of_ok {xs : List α} {rest : List UInt8}
    (readable : codec.decode payload = .ok xs) :
    v.complete codec fold payload rest =
      (v.forget.updateFront (writing fold) xs, ⟨.ok (some (min v.length xs.length)), rest⟩) := by
  rw [complete, readable]

theorem complete_of_error {e : Unreadable} {rest : List UInt8}
    (corrupt : codec.decode payload = .error e) :
    v.complete codec fold payload rest = (v.forget, ⟨.error e, rest⟩) := by
  rw [complete, corrupt]

theorem rest_complete (codec : Codec α) (fold : Option (α → α → α)) (v : ObjectView α)
    (payload rest : List UInt8) : (v.complete codec fold payload rest).2.rest = rest := by
  cases decoded : codec.decode payload with
  | error e => rw [complete_of_error decoded]
  | ok xs => rw [complete_of_ok decoded]

theorem gathered_complete (codec : Codec α) (fold : Option (α → α → α)) (v : ObjectView α)
    (payload rest : List UInt8) : (v.complete codec fold payload rest).1.gathered = [] := by
  cases decoded : codec.decode payload with
  | error e =>
    rw [complete_of_error decoded]
    rfl
  | ok xs =>
    rw [complete_of_ok decoded]
    rfl

/-- A window is gathered when it ends within the first message of all bytes; otherwise it completes
that message, and the bytes after it are left. -/
theorem accept_eq (codec : Codec α) (fold : Option (α → α → α)) {bytes : List UInt8}
    (whole : v.gathered ++ window = bytes) (held : v.gathered.length ≤ announced bytes) :
    v.accept codec fold window =
      if bytes.length < announced bytes then ({ v with gathered := bytes }, ⟨.ok none, []⟩)
      else v.complete codec fold ((bytes.take (announced bytes)).drop headerWidth)
        (bytes.drop (announced bytes)) := by
  have inside : v.gathered.length ≤ bytes.length := by
    rw [← whole, List.length_append]
    exact Nat.le_add_right _ _
  have least : headerWidth ≤ announced bytes := Nat.le_add_right _ _
  rw [accept, gather_eq, whole]
  dsimp only
  by_cases partly : bytes.length < headerWidth
  · have all : bytes.length ≤ max v.gathered.length headerWidth := by omega
    rw [List.take_of_length_le all, List.drop_of_length_le all, if_pos partly,
      if_pos (Nat.lt_of_lt_of_le partly least)]
  · have width : (bytes.take (max v.gathered.length headerWidth)).length
        = max v.gathered.length headerWidth := by
      rw [List.length_take]
      omega
    have header : (bytes.take (max v.gathered.length headerWidth)).take headerWidth
        = bytes.take headerWidth := by
      rw [List.take_take, Nat.min_eq_left (Nat.le_max_right _ _)]
    have aim : max (max v.gathered.length headerWidth) (announced bytes) = announced bytes := by
      omega
    rw [if_neg (by omega), header, ← announced, gather_eq, List.take_append_drop, width, aim]
    by_cases short : bytes.length < announced bytes
    · rw [List.take_of_length_le (Nat.le_of_lt short), List.drop_of_length_le (Nat.le_of_lt short),
        if_pos short, if_pos short]
    · rw [if_neg short, if_neg (by rw [List.length_take]; omega)]
      rfl

theorem accept_of_short {more : List UInt8} (short : payload.length ≤ maxPayload)
    (within : v.gathered ++ window ++ more = framed payload) (unread : more ≠ []) :
    v.accept codec fold window =
      ({ v with gathered := v.gathered ++ window }, ⟨.ok none, []⟩) := by
  have far := lt_announced short within unread
  have held : v.gathered.length ≤ announced (v.gathered ++ window) := by
    rw [List.length_append] at far
    omega
  rw [accept_eq codec fold rfl held, if_pos far]

theorem accept_of_last {last later : List UInt8} (short : payload.length ≤ maxPayload)
    (whole : v.gathered ++ last = framed payload) :
    v.accept codec fold (last ++ later) = v.complete codec fold payload later := by
  have bytes : v.gathered ++ (last ++ later) = framed payload ++ later := by
    rw [← List.append_assoc, whole]
  have size := announced_framed short later
  have held : v.gathered.length ≤ announced (framed payload ++ later) := by
    rw [size, ← whole, List.length_append]
    exact Nat.le_add_right _ _
  have enough : ¬(framed payload ++ later).length < announced (framed payload ++ later) := by
    rw [size, List.length_append]
    omega
  rw [accept_eq codec fold bytes held, if_neg enough, size, List.take_left, List.drop_left,
    drop_framed]

/-- A call that hands a window to a view, or to a folding of it. -/
structure Call (α : Type) where
  view : ObjectView α
  fold : Option (α → α → α)
  window : List UInt8

namespace Call

variable (codec : Codec α) (c : Call α)

def left : ObjectView α := (c.view.accept codec c.fold c.window).1

def outcome : Except Unreadable (Option Nat) := (c.view.accept codec c.fold c.window).2.outcome

def rest : List UInt8 := (c.view.accept codec c.fold c.window).2.rest

end Call

/-- Hands windows to a view, each of them until it is empty. Every call is made on the view itself
or on a folding of it, as chosen for its number. Should a call take nothing, it is the last one. -/
def feed (codec : Codec α) (choose : Nat → Option (α → α → α)) (k : Nat) (v : ObjectView α) :
    List (List UInt8) → List (Call α) × ObjectView α
  | [] => ([], v)
  | [] :: windows => feed codec choose k v windows
  | (b :: bs) :: windows =>
    let call : Call α := ⟨v, choose k, b :: bs⟩
    if _ : (call.rest codec).length < (b :: bs).length then
      let later := feed codec choose (k + 1) (call.left codec) (call.rest codec :: windows)
      (call :: later.1, later.2)
    else ([call], call.left codec)
termination_by windows => windows.flatten.length + windows.length
decreasing_by
  · simp
  · simp +zetaDelta only [List.flatten_cons, List.length_append, List.length_cons] at *
    omega

/-- A call takes its whole window, which ends before the message does, and changes no object. -/
structure Waits (codec : Codec α) (payload : List UInt8) (c : Call α) : Prop where
  nonempty : c.window ≠ []
  within : ∃ more, more ≠ [] ∧ c.view.gathered ++ c.window ++ more = framed payload
  outcome : c.outcome codec = .ok none
  rest : c.rest codec = []
  left : c.left codec = { c.view with gathered := c.view.gathered ++ c.window }

/-- A call takes the last bytes of a message and none beyond. Its objects are written, as many as
the view has, or no object changes and the call tells why; nothing is gathered any more. -/
structure Completes (codec : Codec α) (payload : List UInt8) (c : Call α) : Prop where
  last : ∃ last, last ≠ [] ∧ c.view.gathered ++ last = framed payload ∧
    c.window = last ++ c.rest codec
  readable : ∀ xs, codec.decode payload = .ok xs →
    c.outcome codec = .ok (some (min c.view.length xs.length)) ∧
      Written c.fold c.view xs (c.left codec)
  corrupt : ∀ e, codec.decode payload = .error e →
    c.outcome codec = .error e ∧ (c.left codec).items = c.view.items ∧
      c.view.Alike (c.left codec)
  idle : (c.left codec).gathered = []

/-- Calls that receive one message, each on the view that the one before has left. -/
inductive Receives (codec : Codec α) (payload : List UInt8) :
    ObjectView α → List (Call α) → ObjectView α → Prop where
  | wait {c : Call α} {cs : List (Call α)} {w : ObjectView α} (waits : Waits codec payload c)
      (more : Receives codec payload (c.left codec) cs w) :
      Receives codec payload c.view (c :: cs) w
  | last {c : Call α} (completes : Completes codec payload c) :
      Receives codec payload c.view [c] (c.left codec)

inductive Handles (codec : Codec α) :
    List (List UInt8) → ObjectView α → List (Call α) → ObjectView α → Prop where
  | none (v : ObjectView α) : Handles codec [] v [] v
  | next {payload : List UInt8} {payloads : List (List UInt8)} {u v w : ObjectView α}
      {cs ds : List (Call α)} (first : Receives codec payload u cs v)
      (later : Handles codec payloads v ds w) : Handles codec (payload :: payloads) u (cs ++ ds) w

theorem waits_of_short {more : List UInt8} (short : payload.length ≤ maxPayload)
    (nonempty : window ≠ []) (within : v.gathered ++ window ++ more = framed payload)
    (unread : more ≠ []) : Waits codec payload ⟨v, fold, window⟩ := by
  have step : v.accept codec fold window = _ := accept_of_short short within unread
  exact
    { nonempty
      within := ⟨more, unread, within⟩
      outcome := congrArg (·.2.outcome) step
      rest := congrArg (·.2.rest) step
      left := congrArg (·.1) step }

theorem rest_of_last {last later : List UInt8} (short : payload.length ≤ maxPayload)
    (whole : v.gathered ++ last = framed payload) :
    Call.rest codec ⟨v, fold, last ++ later⟩ = later := by
  rw [Call.rest, accept_of_last short whole, rest_complete]

theorem completes_of_last {last later : List UInt8} (fits : v.Fits)
    (short : payload.length ≤ maxPayload) (nonempty : last ≠ [])
    (whole : v.gathered ++ last = framed payload) :
    Completes codec payload ⟨v, fold, last ++ later⟩ := by
  have step : v.accept codec fold (last ++ later) = v.complete codec fold payload later :=
    accept_of_last short whole
  have rest : Call.rest codec ⟨v, fold, last ++ later⟩ = later := rest_of_last short whole
  refine ⟨⟨last, nonempty, whole, by rw [rest]⟩, ?_, ?_, ?_⟩
  · intro xs readable
    have stored := step.trans (complete_of_ok readable)
    have left : Call.left codec ⟨v, fold, last ++ later⟩ = v.forget.updateFront (writing fold) xs :=
      congrArg (·.1) stored
    have written := written_updateFront (v := v.forget) fits fold xs
    rw [left]
    exact ⟨congrArg (·.2.outcome) stored, written.item, written.others, written.alike.range,
      written.alike.size⟩
  · intro e corrupt
    have refused := step.trans (complete_of_error corrupt)
    have left : Call.left codec ⟨v, fold, last ++ later⟩ = v.forget := congrArg (·.1) refused
    rw [left]
    exact ⟨congrArg (·.2.outcome) refused, rfl, rfl, rfl⟩
  · rw [Call.left, step, gathered_complete]

theorem feed_nil (codec : Codec α) (choose : Nat → Option (α → α → α)) (k : Nat)
    (v : ObjectView α) : feed codec choose k v [] = ([], v) := by rw [feed]

theorem feed_empty (codec : Codec α) (choose : Nat → Option (α → α → α)) (k : Nat)
    (v : ObjectView α) (windows : List (List UInt8)) :
    feed codec choose k v ([] :: windows) = feed codec choose k v windows := by rw [feed]

/-- A window that a call takes bytes from goes to the next call with the bytes that are left. -/
theorem feed_call {choose : Nat → Option (α → α → α)} {k : Nat}
    (taken : (Call.rest codec ⟨v, choose k, window⟩).length < window.length) :
    feed codec choose k v (window :: windows) =
      let call : Call α := ⟨v, choose k, window⟩
      let later := feed codec choose (k + 1) (call.left codec) (call.rest codec :: windows)
      (call :: later.1, later.2) := by
  cases window with
  | nil => exact absurd taken (Nat.not_lt_zero _)
  | cons b bs => rw [feed, dif_pos taken]

/-- A string of bytes that is cut twice: the earlier cut and the later one have a part between. -/
theorem exists_between {a b c d : List UInt8} (cut : a ++ b = c ++ d)
    (earlier : a.length ≤ c.length) : ∃ e, a ++ e = c ∧ b = e ++ d := by
  rcases List.append_eq_append_iff.mp cut with ⟨e, whole, split⟩ | ⟨e, whole, split⟩
  · exact ⟨e, whole.symm, split⟩
  · have none : e = [] := by
      rw [whole, List.length_append] at earlier
      exact List.eq_nil_of_length_eq_zero (by omega)
    subst none
    rw [List.append_nil] at whole
    exact ⟨[], by rw [List.append_nil, whole], split.symm⟩

theorem ne_nil_of_length_lt {a e c : List UInt8} (whole : a ++ e = c) (less : a.length < c.length) :
    e ≠ [] := by
  rintro rfl
  rw [← whole, List.append_nil] at less
  exact absurd less (Nat.lt_irrefl _)

/-- A call on the next window of a stream waits for more of the present message or completes it. -/
theorem waits_or_completes (codec : Codec α) (fold : Option (α → α → α)) {later tail : List UInt8}
    (fits : v.Fits) (short : payload.length ≤ maxPayload) (nonempty : window ≠ [])
    (inside : v.gathered.length < (framed payload).length)
    (stream : v.gathered ++ window ++ later = framed payload ++ tail) :
    let c : Call α := ⟨v, fold, window⟩
    (Waits codec payload c ∧ (c.left codec).gathered.length < (framed payload).length ∧
      (c.left codec).gathered ++ later = framed payload ++ tail) ∨
    (Completes codec payload c ∧ c.rest codec ++ later = tail) := by
  intro c
  by_cases within : (v.gathered ++ window).length < (framed payload).length
  · obtain ⟨more, message, -⟩ := exists_between stream (Nat.le_of_lt within)
    have unread := ne_nil_of_length_lt message within
    have waits : Waits codec payload c := waits_of_short short nonempty message unread
    rw [waits.left]
    exact .inl ⟨waits, within, stream⟩
  · obtain ⟨rest, reach, split⟩ := exists_between stream.symm (Nat.le_of_not_lt within)
    obtain ⟨last, message, cut⟩ := exists_between reach.symm (Nat.le_of_lt inside)
    have completes : Completes codec payload ⟨v, fold, last ++ rest⟩ :=
      completes_of_last fits short (ne_nil_of_length_lt message inside) message
    have left : Call.rest codec ⟨v, fold, last ++ rest⟩ = rest := rest_of_last short message
    subst cut
    exact .inr ⟨completes, by rw [left, split]⟩

theorem Waits.takes {c : Call α} (waits : Waits codec payload c) :
    (c.rest codec).length < c.window.length := by
  rw [waits.rest]
  exact List.length_pos_of_ne_nil waits.nonempty

theorem Completes.takes {c : Call α} (completes : Completes codec payload c) :
    (c.rest codec).length < c.window.length := by
  obtain ⟨last, nonempty, -, cut⟩ := completes.last
  have positive := List.length_pos_of_ne_nil nonempty
  have size := congrArg List.length cut
  rw [List.length_append] at size
  omega

theorem Waits.fits {c : Call α} (waits : Waits codec payload c) (fits : c.view.Fits) :
    (c.left codec).Fits := by
  rw [waits.left]
  exact fits

theorem Completes.fits {c : Call α} (completes : Completes codec payload c)
    (fits : c.view.Fits) : (c.left codec).Fits := by
  cases decoded : codec.decode payload with
  | error e => exact (completes.corrupt e decoded).2.2.fits fits
  | ok xs => exact (completes.readable xs decoded).2.alike.fits fits

theorem Handles.wait {c : Call α} {cs : List (Call α)} (waits : Waits codec payload c)
    (handles : Handles codec (payload :: payloads) (c.left codec) cs w) :
    Handles codec (payload :: payloads) c.view (c :: cs) w := by
  cases handles with
  | next first later => exact .next (.wait waits first) later

/-- A window that is not empty belongs to a message. -/
theorem exists_payload (nonempty : window ≠ [])
    (stream : v.gathered ++ (window :: windows).flatten = payloads.flatMap framed) :
    ∃ payload later, payloads = payload :: later ∧
      v.gathered ++ window ++ windows.flatten = framed payload ++ later.flatMap framed := by
  rw [List.flatten_cons, ← List.append_assoc] at stream
  cases payloads with
  | nil =>
    have none := (List.append_eq_nil_iff.mp stream).1
    exact absurd (List.append_eq_nil_iff.mp none).2 nonempty
  | cons payload later => exact ⟨payload, later, rfl, stream⟩

/-- A view in the middle of a message receives the rest of it, and then the other messages. -/
theorem handles_feed (codec : Codec α) (choose : Nat → Option (α → α → α)) (k : Nat) (fits : v.Fits)
    (short : ∀ payload ∈ payloads, payload.length ≤ maxPayload)
    (inside : ∀ payload ∈ payloads.head?, v.gathered.length < (framed payload).length)
    (stream : v.gathered ++ windows.flatten = payloads.flatMap framed) :
    let run := feed codec choose k v windows
    Handles codec payloads v run.1 run.2 ∧ run.2.gathered = [] := by
  induction k, v, windows using feed.induct codec choose generalizing payloads with
  | case1 k v =>
    rw [List.flatten_nil, List.append_nil] at stream
    rw [feed_nil]
    cases payloads with
    | nil => exact ⟨.none v, stream⟩
    | cons payload payloads =>
      have less := inside payload rfl
      rw [stream, List.flatMap_cons, List.length_append] at less
      omega
  | case2 k v windows ih =>
    rw [feed_empty]
    exact ih fits short inside stream
  | case3 k v b bs windows call taken =>
    rename_i ih
    rw [feed_call taken]
    obtain ⟨payload, payloads, rfl, next⟩ := exists_payload (List.cons_ne_nil b bs) stream
    obtain ⟨size, sizes⟩ := List.forall_mem_cons.mp short
    rcases waits_or_completes codec (choose k) fits size (List.cons_ne_nil b bs)
      (inside payload rfl) next with ⟨waits, less, more⟩ | ⟨completes, tail⟩
    · have later : (call.left codec).gathered ++ (call.rest codec :: windows).flatten
          = (payload :: payloads).flatMap framed := by
        rw [waits.rest]
        exact more
      have cut : ∀ p ∈ (payload :: payloads).head?,
          (call.left codec).gathered.length < (framed p).length := by
        rintro _ ⟨⟩
        exact less
      obtain ⟨handles, idle⟩ := ih (waits.fits fits) short cut later
      exact ⟨handles.wait waits, idle⟩
    · have later : (call.left codec).gathered ++ (call.rest codec :: windows).flatten
          = payloads.flatMap framed := by
        rw [completes.idle]
        exact tail
      have fresh : ∀ p ∈ payloads.head?, (call.left codec).gathered.length < (framed p).length := by
        intro p _
        rw [completes.idle]
        exact List.length_pos_of_ne_nil (framed_ne_nil p)
      obtain ⟨handles, idle⟩ := ih (completes.fits fits) sizes fresh later
      exact ⟨.next (.last completes) handles, idle⟩
  | case4 k v b bs windows call =>
    rename_i stuck
    exfalso
    apply stuck
    obtain ⟨payload, payloads, rfl, next⟩ := exists_payload (List.cons_ne_nil b bs) stream
    obtain ⟨size, -⟩ := List.forall_mem_cons.mp short
    rcases waits_or_completes codec (choose k) fits size (List.cons_ne_nil b bs)
      (inside payload rfl) next with ⟨waits, -⟩ | ⟨completes, -⟩
    · exact waits.takes
    · exact completes.takes

/-- Every call is made as chosen for its number. -/
theorem fold_of_feed (codec : Codec α) (choose : Nat → Option (α → α → α)) (k : Nat)
    (v : ObjectView α) (windows : List (List UInt8)) {i : Nat} {c : Call α}
    (h : (feed codec choose k v windows).1[i]? = some c) : c.fold = choose (k + i) := by
  induction k, v, windows using feed.induct codec choose generalizing i with
  | case1 k v =>
    rw [feed_nil] at h
    cases h
  | case2 k v windows ih =>
    rw [feed_empty] at h
    exact ih h
  | case3 k v b bs windows call taken =>
    rename_i ih
    rw [feed_call taken] at h
    cases i with
    | zero =>
      cases h
      rfl
    | succ i =>
      have later := ih h
      rw [Nat.add_right_comm, Nat.add_assoc] at later
      exact later
  | case4 k v b bs windows call =>
    rename_i stuck
    rw [feed, dif_neg stuck] at h
    cases i with
    | zero =>
      cases h
      rfl
    | succ i => cases h

/-- A stream of messages is received message by message, however it is cut into windows and however
each call is made. A call waits, with all of its window taken, or it completes the message it is in,
and leaves what follows: as many objects as the view has are written, or the call tells that the
payload is corrupt and no object changes. The next message is received alike. -/
theorem stream_received_by_messages (codec : Codec α) {v : ObjectView α} (reached : Reached codec v)
    (idle : v.gathered = []) (payloads : List (List UInt8))
    (short : ∀ payload ∈ payloads, payload.length ≤ maxPayload) (windows : List (List UInt8))
    (cut : windows.flatten = payloads.flatMap framed) (choose : Nat → Option (α → α → α)) :
    let run := feed codec choose 0 v windows
    Handles codec payloads v run.1 run.2 ∧ run.2.gathered = [] ∧
      ∀ i c, run.1[i]? = some c → c.fold = choose i := by
  intro run
  have inside : ∀ payload ∈ payloads.head?, v.gathered.length < (framed payload).length := by
    intro payload _
    rw [idle]
    exact List.length_pos_of_ne_nil (framed_ne_nil payload)
  have stream : v.gathered ++ windows.flatten = payloads.flatMap framed := by
    rw [idle, cut]
    rfl
  obtain ⟨handles, done⟩ := handles_feed codec choose 0 reached.current.fits short inside stream
  refine ⟨handles, done, ?_⟩
  intro i c h
  have made := fold_of_feed codec choose 0 v windows h
  rwa [Nat.zero_add] at made

/-- Two objects, a payload that is none, and one more object come to a view of three in windows
that end anywhere; every other call is made on a folding. -/
theorem stream_received_by_messages_past_corrupt :
    let codec := (Record.word 8 1).format.codec
    let v : ObjectView (BitVec 8) := whole #[1, 2, 3]
    let payloads : List (List UInt8) :=
      [[2, 0, 0, 0, 0, 0, 0, 0, 7, 8], [], [1, 0, 0, 0, 0, 0, 0, 0, 9]]
    let windows : List (List UInt8) :=
      [[0, 0], [0, 10, 2, 0, 0, 0, 0, 0, 0, 0, 7], [], [8, 0, 0, 0],
        [0, 0, 0, 0, 9, 1, 0, 0, 0, 0, 0, 0, 0, 9]]
    let choose : Nat → Option (BitVec 8 → BitVec 8 → BitVec 8) :=
      fun k => if k % 2 = 0 then none else some (· + ·)
    let run := feed codec choose 0 v windows
    Reached codec v ∧ v.gathered = [] ∧ (∀ payload ∈ payloads, payload.length ≤ maxPayload) ∧
      windows.flatten = payloads.flatMap framed ∧
      Handles codec payloads v run.1 run.2 ∧ run.2.gathered = [] ∧
      run.1.map (Call.outcome codec) =
        [.ok none, .ok none, .ok (some 2), .ok none, .error .endOfBytes, .ok (some 1)] ∧
      run.2.items = #[16, 8, 3] := by
  intro codec v payloads windows choose run
  have reached : Reached codec v := ⟨_, none, v, [], rfl, rfl⟩
  have short : ∀ payload ∈ payloads, payload.length ≤ maxPayload := by decide
  have cut : windows.flatten = payloads.flatMap framed := by decide +kernel
  obtain ⟨handles, idle, -⟩ :=
    stream_received_by_messages codec reached rfl payloads short windows cut choose
  refine ⟨reached, rfl, short, cut, handles, idle, ?_, ?_⟩
  · decide +kernel
  · decide +kernel

end ObjectView

end WireView
