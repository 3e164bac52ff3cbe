import Std.Data.TreeSet
import Swarm.Code.Decode

/-!
# Programs

A program is a list of strings and a code section that refers to them. The code
is checked once, when the program is made: it is not empty, it decodes from its
start to its end, every string operand names a string, and every address operand
names the start of an instruction.
-/

namespace Swarm

/-- Why strings and code do not make a program, or bytes are not the image of one. -/
inductive ProgramError where
  /-- The bytes do not begin like an image. -/
  | badMagic
  /-- The image has another version. -/
  | unsupportedVersion (version : UInt8)
  /-- The image ends too early. -/
  | truncated
  /-- Bytes follow the code section. -/
  | trailingBytes (count : Nat)
  /-- There is no code. -/
  | emptyCode
  /-- The code does not decode. -/
  | decode (error : DecodeError)
  /-- An instruction names a string that does not exist. -/
  | stringOutOfRange (offset : Nat) (string : UInt16)
  /-- An instruction names an address where no instruction starts. -/
  | badAddress (offset : Nat) (address : UInt32)
  deriving DecidableEq, Repr

/-- The wording of an error. -/
def ProgramError.message : ProgramError → String
  | .badMagic => "not a bytecode image"
  | .unsupportedVersion version => s!"unsupported bytecode version {version.toNat}"
  | .truncated => "bytecode image is truncated"
  | .trailingBytes count => s!"{count} unexpected bytes after the code section"
  | .emptyCode => "code section is empty"
  | .decode error => error.message
  | .stringOutOfRange offset string =>
    s!"string #{string.toNat} referenced at offset {offset} does not exist"
  | .badAddress offset address =>
    s!"address @{address.toNat} referenced at offset {offset} is not an instruction"

/-- The string that an instruction refers to. -/
def Instruction.string? : Instruction → Option UInt16
  | .pushString string => some string
  | .globalLoad name | .globalStore name => some name
  | _ => none

/-- The address that an instruction refers to. -/
def Instruction.address? : Instruction → Option UInt32
  | .pushClosure address | .jump address | .jumpIfZero address | .jumpIfNotZero address =>
    some address
  | _ => none

namespace Program

/-- Accept a decoded instruction whose string operand is below the number of strings. -/
def checkItem (stringCount : Nat) : Decoder.Item → Except ProgramError (Nat × Instruction)
  | .error error => .error (.decode error)
  | .ok (offset, i) =>
    match i.string? with
    | none => .ok (offset, i)
    | some string =>
      if string.toNat < stringCount then .ok (offset, i)
      else .error (.stringOutOfRange offset string)

/-- The offsets at which instructions start, as addresses. -/
def starts (listing : List (Nat × Instruction)) : Std.TreeSet UInt32 :=
  .ofList (listing.map fun entry => UInt32.ofNat entry.1)

/-- Accept an instruction whose address operand is the start of an instruction. -/
def checkAddress (starts : Std.TreeSet UInt32) (entry : Nat × Instruction) :
    Except ProgramError Unit :=
  match entry.2.address? with
  | none => .ok ()
  | some address =>
    if starts.contains address then .ok () else .error (.badAddress entry.1 address)

/-- Check a code section: its items in their order first, then the addresses in theirs. -/
def check (stringCount : Nat) (code : Code) : Except ProgramError Unit := do
  if code.isEmpty then throw .emptyCode
  let listing ← code.items.toList.mapM (checkItem stringCount)
  listing.forM (checkAddress (starts listing))

end Program

/-- Strings and a code section that has passed the check. -/
structure Program where
  /-- The strings that instructions refer to by index. -/
  strings : Array Bytes
  /-- The code section. -/
  code : Code
  /-- The code decodes and refers to existing strings and instructions only. -/
  checked : Program.check strings.size code = .ok ()
  deriving DecidableEq

namespace Program

/-- The program with the given strings and code. -/
def new? (strings : Array Bytes) (code : Code) : Except ProgramError Program :=
  match h : check strings.size code with
  | .ok () => .ok ⟨strings, code, h⟩
  | .error error => .error error

end Program

end Swarm
