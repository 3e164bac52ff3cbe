import Swarm.Debug.VarInt
import Swarm.Program.Strings
import Swarm.Text.Utf8

/-!
# Debug-symbol tables

A table maps offsets in the code to positions in source files. Its entries are
sorted by offset, and an offset belongs to the last entry that is not after it.
A written table holds the names of the files and then, for every entry, the
differences to the entry before it as variable-length integers.
-/

namespace Swarm.Debug

/-- The source position of the code from an offset on. -/
structure Entry where
  /-- Offset in the code. -/
  pc : UInt32
  /-- Line in the source file. -/
  line : UInt32
  /-- Column in the source file. -/
  column : UInt32
  /-- Index of the source file. -/
  file : UInt32
  deriving DecidableEq, Repr

/-- A source position with the name of its file. -/
structure Location where
  /-- Name of the source file. -/
  file : String
  /-- Line in the source file. -/
  line : UInt32
  /-- Column in the source file. -/
  column : UInt32
  deriving DecidableEq, Repr

/-- A location as it is written in diagnostics. -/
def Location.text (l : Location) : String := s!"{l.file}:{l.line.toNat}:{l.column.toNat}"

/-- Why bytes are not a debug-symbol table. -/
inductive TableError where
  /-- The bytes do not begin like a table. -/
  | badMagic
  /-- The bytes end too early, or a number in them is out of its range. -/
  | truncated
  /-- The name of a source file is not text. -/
  | badFileName
  /-- An entry names a source file that does not exist. -/
  | fileOutOfRange (file : UInt32)
  deriving DecidableEq, Repr

/-- The wording of an error. -/
def TableError.message : TableError → String
  | .badMagic => "not a debug-symbol table"
  | .truncated => "debug-symbol table is truncated"
  | .badFileName => "source file name is not valid UTF-8"
  | .fileOutOfRange file => s!"entry refers to unknown source file #{file.toNat}"

/-- A map from offsets in the code to source positions. -/
structure Table where
  /-- Names of the source files. -/
  files : Array String := #[]
  /-- Source positions, sorted by offset. -/
  entries : Array Entry := #[]
  deriving DecidableEq, Repr

/-- What the differences of an entry refer to. -/
structure Origin where
  /-- Offset of the entry before. -/
  pc : UInt32 := 0
  /-- Running sum of the differences of lines. -/
  line : Int := 0
  /-- Running sum of the differences of columns. -/
  column : Int := 0
  deriving DecidableEq, Repr

/-- The origin for the entry after this one. -/
def Entry.origin (e : Entry) : Origin := ⟨e.pc, e.line.toNat, e.column.toNat⟩

/-- The lowest 32 bits of a whole number. -/
def word (n : Int) : UInt32 := UInt32.ofNat (n % 4294967296).toNat

/-- Advance an origin by the differences of an entry, if the offset stays in its range. -/
def Origin.advance? (origin : Origin) (pc line column : UInt32) : Option Origin :=
  if origin.pc.toNat + pc.toNat < 4294967296 then
    some ⟨origin.pc + pc, origin.line + VarInt.unzigzag line.toNat,
      origin.column + VarInt.unzigzag column.toNat⟩
  else none

/-- The first index between `low` and `high` from which on a sorted array fails the test,
found by halving the range. -/
def partitionPoint {α : Type} (test : α → Bool) (xs : Array α) (low high : Nat) : Nat :=
  if low < high then
    let middle := (low + high) / 2
    match xs[middle]? with
    | none => low
    | some x =>
      if test x then partitionPoint test xs (middle + 1) high
      else partitionPoint test xs low middle
  else low
  termination_by high - low

namespace Table

/-- The entry that an offset belongs to. -/
def entry? (t : Table) (pc : UInt32) : Option Entry :=
  match partitionPoint (fun e => e.pc ≤ pc) t.entries 0 t.entries.size with
  | 0 => none
  | index + 1 => t.entries[index]?

/-- The source position of an offset. -/
def lookup (t : Table) (pc : UInt32) : Option Location := do
  let entry ← t.entry? pc
  let file ← t.files[entry.file.toNat]?
  return ⟨file, entry.line, entry.column⟩

/-- The bytes that every written table begins with. -/
def magic : Bytes := [0x48, 0x44, 0x42, 0x47]

/-- A signed difference as bytes; of its folded form the lowest 32 bits are kept. -/
def writeDelta (delta : Int) : Bytes := VarInt.encode (UInt32.ofNat (VarInt.zigzag delta))

/-- The bytes of an entry after the given origin. -/
def writeEntry (origin : Origin) (e : Entry) : Bytes :=
  VarInt.encode (e.pc - origin.pc) ++ writeDelta (e.line.toNat - origin.line) ++
    writeDelta (e.column.toNat - origin.column) ++ VarInt.encode e.file

/-- The bytes of entries after the given origin. -/
def writeEntries (origin : Origin) : List Entry → Bytes
  | [] => []
  | e :: es => writeEntry origin e ++ writeEntries e.origin es

/-- The bytes of a table. -/
def toBytes (t : Table) : Bytes :=
  magic ++ Counted.write (t.files.map Utf8.encode) ++ writeEntries {} t.entries.toList

/-- Read the four numbers of an entry. -/
def readNumbers? (bs : Bytes) : Option (UInt32 × UInt32 × UInt32 × UInt32 × Bytes) := do
  let (pc, bs) ← VarInt.decode? bs
  let (line, bs) ← VarInt.decode? bs
  let (column, bs) ← VarInt.decode? bs
  let (file, bs) ← VarInt.decode? bs
  return (pc, line, column, file, bs)

/-- Read an entry after the given origin; the origin for the next entry and the bytes after
the entry are returned with it. -/
def readEntry (fileCount : Nat) (origin : Origin) (bs : Bytes) :
    Except TableError (Entry × Origin × Bytes) :=
  match readNumbers? bs with
  | none => .error .truncated
  | some (pc, line, column, file, rest) =>
    match origin.advance? pc line column with
    | none => .error .truncated
    | some next =>
      if file.toNat < fileCount then
        .ok (⟨next.pc, word next.line, word next.column, file⟩, next, rest)
      else .error (.fileOutOfRange file)

/-- Reading an entry takes at least one byte. -/
theorem length_lt_of_readNumbers? {bs rest : Bytes} {pc line column file : UInt32}
    (h : readNumbers? bs = some (pc, line, column, file, rest)) : rest.length < bs.length := by
  simp only [readNumbers?, Option.bind_eq_bind, Option.bind_eq_some_iff, Option.pure_def,
    Option.some.injEq, Prod.mk.injEq, Prod.exists] at h
  obtain ⟨a, bs₁, h₁, b, bs₂, h₂, c, bs₃, h₃, d, bs₄, h₄, -, -, -, -, rfl⟩ := h
  have := VarInt.length_lt_of_decode? h₁
  have := VarInt.length_lt_of_decode? h₂
  have := VarInt.length_lt_of_decode? h₃
  have := VarInt.length_lt_of_decode? h₄
  omega

/-- Reading an entry uses up at least one byte. -/
theorem length_lt_of_readEntry {fileCount : Nat} {origin next : Origin} {bs rest : Bytes}
    {e : Entry} (h : readEntry fileCount origin bs = .ok (e, next, rest)) :
    rest.length < bs.length := by
  unfold readEntry at h
  split at h
  · contradiction
  · rename_i hnumbers
    have := length_lt_of_readNumbers? hnumbers
    split at h
    · contradiction
    · split at h
      · cases h
        assumption
      · contradiction

/-- Read entries up to the end of the bytes and append them to those already read. -/
def readEntries (fileCount : Nat) (origin : Origin) (found : Array Entry) (bs : Bytes) :
    Except TableError (Array Entry) :=
  if bs.isEmpty then .ok found
  else match h : readEntry fileCount origin bs with
    | .error error => .error error
    | .ok (e, next, rest) =>
      have := length_lt_of_readEntry h
      readEntries fileCount next (found.push e) rest
  termination_by bs.length

/-- The names of source files, if all of them are text. -/
def readNames (names : Array Bytes) : Except TableError (Array String) :=
  names.mapM fun name => match Utf8.decode? name with
    | some file => .ok file
    | none => .error .badFileName

/-- Read what follows the magic word. A name that is not text counts before the end of the
bytes if it stands before it. -/
def readBody (bs : Bytes) : Except TableError Table := do
  let (names, rest?) := Counted.read bs
  let files ← readNames names
  match rest? with
  | none => throw .truncated
  | some rest => return ⟨files, ← readEntries files.size {} #[] rest⟩

/-- The table that the bytes stand for. -/
def ofBytes (bs : Bytes) : Except TableError Table :=
  match bs.cut? 4 with
  | none => .error .badMagic
  | some (front, rest) => if front = magic then readBody rest else .error .badMagic

/-- Record that the code from an offset on comes from a source position. The offset is not
before those already recorded. -/
def record (t : Table) (pc : UInt32) (file : String) (line column : UInt32) : Table :=
  match t.files.findIdx? (· == file) with
  | some index => { t with entries := t.entries.push ⟨pc, line, column, UInt32.ofNat index⟩ }
  | none =>
    { files := t.files.push file
      entries := t.entries.push ⟨pc, line, column, UInt32.ofNat t.files.size⟩ }

end Table

end Swarm.Debug
