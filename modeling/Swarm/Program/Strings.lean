import Swarm.Bytes

/-!
# Counted strings

A list of strings is written as its length, in two bytes, followed by every
string with its own length in two bytes before it. Lengths that do not fit are
kept modulo the range of two bytes. Reading says which strings were complete
even if the bytes end too early.
-/

namespace Swarm.Counted

/-- Read a number of the given width. -/
def readWord? (width : Nat) (bs : Bytes) : Option (Nat × Bytes) :=
  (bs.cut? width).map fun (word, rest) => (littleEndianValue word, rest)

/-- Read a string with its length before it. -/
def readString? (bs : Bytes) : Option (Bytes × Bytes) :=
  match readWord? 2 bs with
  | none => none
  | some (length, rest) => rest.cut? length

/-- Read a number of strings. The strings that were complete are returned in any case, what
follows them only if none is missing. -/
def readStrings : Nat → Array Bytes → Bytes → Array Bytes × Option Bytes
  | 0, found, bs => (found, some bs)
  | count + 1, found, bs =>
    match readString? bs with
    | none => (found, none)
    | some (string, rest) => readStrings count (found.push string) rest

/-- Read strings with their number before them. -/
def read (bs : Bytes) : Array Bytes × Option Bytes :=
  match readWord? 2 bs with
  | none => (#[], none)
  | some (count, rest) => readStrings count #[] rest

/-- The bytes of one string. -/
def writeString (string : Bytes) : Bytes := littleEndian 2 string.length ++ string

/-- The bytes of strings with their number before them. -/
def write (strings : Array Bytes) : Bytes :=
  littleEndian 2 strings.size ++ strings.toList.flatMap writeString

/-- A number that was written is read, whatever follows it. -/
theorem readWord?_littleEndian (width n : Nat) (rest : Bytes) :
    readWord? width (littleEndian width n ++ rest) = some (n % wordRange width, rest) := by
  have hcut := Bytes.cut?_append (littleEndian width n) rest
  rw [length_littleEndian] at hcut
  simp [readWord?, hcut, littleEndianValue_littleEndian]

/-- A string that fits is read as it was written, whatever follows it. -/
theorem readString?_writeString {string : Bytes} (h : string.length < 65536) (rest : Bytes) :
    readString? (writeString string ++ rest) = some (string, rest) := by
  have hlength : string.length % wordRange 2 = string.length := Nat.mod_eq_of_lt h
  simp only [readString?, writeString, List.append_assoc, readWord?_littleEndian, hlength]
  exact Bytes.cut?_append string rest

end Swarm.Counted
