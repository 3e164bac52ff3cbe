import Swarm.Bytes

/-!
# UTF-8 text

Strict decoding accepts exactly the encodings of strings. Lenient decoding
accepts every byte string: each longest run of bytes that begins an encoded
character without completing one, and each byte that can begin none, becomes
one replacement character.
-/

namespace Swarm.Utf8

/-- The bytes that encode a string. -/
def encode (s : String) : Bytes := s.toUTF8.toList

/-- The string that the bytes encode, if there is one. -/
def decode? (bs : Bytes) : Option String := String.fromUTF8? ⟨bs.toArray⟩

/-- The character that stands for bytes that encode none. -/
def replacement : Char := '\uFFFD'

/-- What a leading byte announces: how many bytes follow, the bits of the
character that it carries itself, and the bounds of the byte after it. -/
structure Lead where
  /-- The number of bytes that follow. -/
  following : Nat
  /-- The highest bits of the character. -/
  bits : Nat
  /-- The least second byte. -/
  low : UInt8
  /-- The greatest second byte. -/
  high : UInt8

/-- The leading bytes of characters of two to four bytes. The bounds on the second
byte leave out overlong forms, surrogates and numbers above the last code point. -/
def Lead.of? (b : UInt8) : Option Lead :=
  if 0xC2 ≤ b && b ≤ 0xDF then some ⟨1, b.toNat - 0xC0, 0x80, 0xBF⟩
  else if b == 0xE0 then some ⟨2, 0, 0xA0, 0xBF⟩
  else if b == 0xED then some ⟨2, 0xD, 0x80, 0x9F⟩
  else if 0xE1 ≤ b && b ≤ 0xEF then some ⟨2, b.toNat - 0xE0, 0x80, 0xBF⟩
  else if b == 0xF0 then some ⟨3, 0, 0x90, 0xBF⟩
  else if 0xF1 ≤ b && b ≤ 0xF3 then some ⟨3, b.toNat - 0xF0, 0x80, 0xBF⟩
  else if b == 0xF4 then some ⟨3, 4, 0x80, 0x8F⟩
  else none

/-- Complete a character from the bytes after its leading byte; the bytes that did
not fit are returned with it. -/
def finish : Nat → Nat → UInt8 → UInt8 → Bytes → Char × Bytes
  | 0, bits, _, _, rest => (Char.ofNat bits, rest)
  | _ + 1, _, _, _, [] => (replacement, [])
  | following + 1, bits, low, high, b :: rest =>
    if low ≤ b && b ≤ high then
      finish following (64 * bits + b.toNat % 64) 0x80 0xBF rest
    else
      (replacement, b :: rest)

/-- The character read from a leading byte and the bytes after it, and what is left. -/
def next (b : UInt8) (rest : Bytes) : Char × Bytes :=
  if b < 0x80 then (Char.ofNat b.toNat, rest)
  else match Lead.of? b with
    | none => (replacement, rest)
    | some lead => finish lead.following lead.bits lead.low lead.high rest

/-- Finishing a character never adds bytes. -/
theorem length_finish_le (following bits : Nat) (low high : UInt8) (rest : Bytes) :
    (finish following bits low high rest).2.length ≤ rest.length := by
  fun_induction finish following bits low high rest with
  | case1 => simp
  | case2 => simp
  | case3 following bits low high b rest _ ih => simp only [List.length_cons]; omega
  | case4 => simp

/-- Reading a character never adds bytes. -/
theorem length_next_le (b : UInt8) (rest : Bytes) : (next b rest).2.length ≤ rest.length := by
  unfold next
  split
  · simp
  · split
    · simp
    · apply length_finish_le

/-- Append the leniently decoded bytes to a string. -/
def appendLossy (text : String) : Bytes → String
  | [] => text
  | b :: rest =>
    have := length_next_le b rest
    appendLossy (text.push (next b rest).1) (next b rest).2
  termination_by bs => bs.length

/-- The text of any byte string, with replacement characters where it is not UTF-8. -/
def lossy (bs : Bytes) : String := appendLossy "" bs

end Swarm.Utf8
