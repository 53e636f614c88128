import WireView.Fault

/-!
# UTF-8

A character takes one to four bytes. Its first byte says how many more belong to it and bounds
the second, so that no character has two spellings and no surrogate has any. Where bytes are no
text, the place where the last good character ends is reported, with the number of bytes that
could still have started one, or the fact that the text was cut off.
-/

namespace WireView.Utf8

/-- What a first byte announces. -/
structure Lead where
  /-- The bytes that follow. -/
  owed : Nat
  /-- The least and the greatest second byte. -/
  least : UInt8
  greatest : UInt8
  /-- What the first byte contributes to the code point. -/
  value : Nat

def lead? (b : UInt8) : Option Lead :=
  if b ≤ 0x7f then some ⟨0, 0x80, 0xbf, b.toNat⟩
  else if b < 0xc2 then none
  else if b ≤ 0xdf then some ⟨1, 0x80, 0xbf, b.toNat % 32⟩
  else if b = 0xe0 then some ⟨2, 0xa0, 0xbf, 0⟩
  else if b = 0xed then some ⟨2, 0x80, 0x9f, 13⟩
  else if b ≤ 0xef then some ⟨2, 0x80, 0xbf, b.toNat % 16⟩
  else if b = 0xf0 then some ⟨3, 0x90, 0xbf, 0⟩
  else if b ≤ 0xf3 then some ⟨3, 0x80, 0xbf, b.toNat % 8⟩
  else if b = 0xf4 then some ⟨3, 0x80, 0x8f, 4⟩
  else none

/-- Why bytes do not start with a character. -/
inductive Broken where
  /-- The first `length` bytes could have started one, but not with the byte after them. -/
  | bad (length : Nat)
  /-- The bytes end inside a character. -/
  | cut

/-- Takes the bytes owed by a first byte; `seen` bytes of the character came before. -/
def follow : Nat → UInt8 → UInt8 → Nat → Nat → List UInt8 → Except Broken Nat
  | 0, _, _, value, _, _ => .ok value
  | _ + 1, _, _, _, _, [] => .error .cut
  | owed + 1, least, greatest, value, seen, b :: bs =>
    if least ≤ b ∧ b ≤ greatest then
      follow owed 0x80 0xbf (value * 64 + b.toNat % 64) (seen + 1) bs
    else .error (.bad seen)

/-- The character that some bytes start with, and how many bytes follow its first one. -/
def character (b : UInt8) (bs : List UInt8) : Except Broken (Char × Nat) :=
  match lead? b with
  | none => .error (.bad 1)
  | some lead => do
    let value ← follow lead.owed lead.least lead.greatest lead.value 1 bs
    return (Char.ofNat value, lead.owed)

/-- The characters of a text whose first byte is at index `start`. -/
def charactersFrom (start : Nat) : List UInt8 → Except Unreadable (List Char)
  | [] => .ok []
  | b :: bs =>
    match character b bs with
    | .error (.bad length) => .error (.badSequence start length)
    | .error .cut => .error (.cutSequence start)
    | .ok (c, owed) => (c :: ·) <$> charactersFrom (start + 1 + owed) (bs.drop owed)
termination_by bs => bs.length
decreasing_by simp only [List.length_drop, List.length_cons]; omega

def decode (bs : List UInt8) : Except Unreadable String := String.ofList <$> charactersFrom 0 bs

def encode (s : String) : List UInt8 := s.toList.flatMap String.utf8EncodeChar

end WireView.Utf8
