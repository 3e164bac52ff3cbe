import Swarm.Program.Basic
import Swarm.Program.Strings

/-!
# Program images

An image is a magic word of four bytes, a version byte, the strings with their
number, the length of the code in four bytes, and the code. Reading rejects
every deviation, and the program that is read has passed the check of its code.
-/

namespace Swarm.Program

/-- The bytes that every image begins with. -/
def magic : Bytes := [0x48, 0x49, 0x56, 0x45]

/-- The only version of images. -/
def version : UInt8 := 1

/-- The image of a program. -/
def toBytes (p : Program) : Bytes :=
  magic ++ version :: Counted.write p.strings ++ littleEndian 4 p.code.size ++ p.code.toList

/-- Read the code section, which ends the image. -/
def readCode (bs : Bytes) : Except ProgramError Code :=
  match Counted.readWord? 4 bs with
  | none => .error .truncated
  | some (size, rest) =>
    match rest.cut? size with
    | none => .error .truncated
    | some (code, rest) =>
      if rest.isEmpty then .ok code.toArray else .error (.trailingBytes rest.length)

/-- Read what follows the version byte. -/
def readBody (bs : Bytes) : Except ProgramError Program :=
  match Counted.read bs with
  | (_, none) => .error .truncated
  | (strings, some rest) =>
    match readCode rest with
    | .error error => .error error
    | .ok code => new? strings code

/-- The program whose image the bytes are. -/
def ofBytes (bs : Bytes) : Except ProgramError Program :=
  match bs.cut? 4 with
  | none => .error .badMagic
  | some (front, rest) =>
    if front ≠ magic then .error .badMagic
    else match rest with
      | [] => .error .truncated
      | b :: rest => if b = version then readBody rest else .error (.unsupportedVersion b)

end Swarm.Program
