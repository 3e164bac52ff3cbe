import Swarm.Code.Instruction
import Swarm.Code.Decode

/-!
# Assembling code

An assembler appends instructions to a code section, each operand in the width
that its type has; these are the widths that decoding reads. An instruction
whose address is not known yet is emitted with address zero and a label;
binding the label writes the current offset over that address.
-/

namespace Swarm

/-- An address operand that is to be filled in. -/
structure Label where
  /-- Where the four bytes of the address stand. -/
  position : Nat
  deriving DecidableEq, Repr

/-- A code section under construction. -/
structure Assembler where
  /-- The code emitted so far. -/
  code : Code := #[]
  deriving DecidableEq, Repr

/-- The instructions that can be emitted with a label for their address. -/
inductive Branch where
  | pushClosure | jump | jumpIfZero | jumpIfNotZero
  deriving DecidableEq, Repr

/-- The opcode of a branch. -/
def Branch.opcode : Branch → Opcode
  | .pushClosure => .pushClosure
  | .jump => .jump
  | .jumpIfZero => .jumpIfZero
  | .jumpIfNotZero => .jumpIfNotZero

/-- The instruction of a branch for an address. -/
def Branch.to (address : UInt32) : Branch → Instruction
  | .pushClosure => .pushClosure address
  | .jump => .jump address
  | .jumpIfZero => .jumpIfZero address
  | .jumpIfNotZero => .jumpIfNotZero address

/-- The opcode of a branch is that of its instructions. -/
@[simp] theorem Branch.opcode_to (branch : Branch) (address : UInt32) :
    (branch.to address).opcode = branch.opcode := by
  cases branch <;> rfl

namespace Assembler

/-- Where the next instruction will start. -/
def offset (a : Assembler) : Nat := a.code.size

/-- Append the byte of an opcode. -/
def emitOp (a : Assembler) (op : Opcode) : Assembler := { a with code := a.code.push op.toByte }

/-- Append a byte. -/
def emitU8 (a : Assembler) (v : UInt8) : Assembler := { a with code := a.code.push v }

/-- Append the two bytes of a word. -/
def emitU16 (a : Assembler) (v : UInt16) : Assembler :=
  { a with code := a.code ++ littleEndian 2 v.toNat }

/-- Append the four bytes of a word. -/
def emitU32 (a : Assembler) (v : UInt32) : Assembler :=
  { a with code := a.code ++ littleEndian 4 v.toNat }

/-- Append the eight bytes of a floating-point literal. -/
def emitF64 (a : Assembler) (bits : UInt64) : Assembler :=
  { a with code := a.code ++ littleEndian 8 bits.toNat }

/-- Append an instruction: the byte of its opcode, then its operand in the width of its type. -/
def emit (a : Assembler) : Instruction → Assembler
  | .done => a.emitOp .done
  | .nop => a.emitOp .nop
  | .pushNil => a.emitOp .pushNil
  | .pushInt value => (a.emitOp .pushInt).emitU32 value.toUInt32
  | .pushFloat bits => (a.emitOp .pushFloat).emitF64 bits
  | .pushString string => (a.emitOp .pushString).emitU16 string
  | .pushClosure address => (a.emitOp .pushClosure).emitU32 address
  | .pushTable => a.emitOp .pushTable
  | .dup => a.emitOp .dup
  | .pop => a.emitOp .pop
  | .tablePut => a.emitOp .tablePut
  | .tableGet => a.emitOp .tableGet
  | .globalLoad name => (a.emitOp .globalLoad).emitU16 name
  | .globalStore name => (a.emitOp .globalStore).emitU16 name
  | .localLoad index => (a.emitOp .localLoad).emitU16 index
  | .localStore index => (a.emitOp .localStore).emitU16 index
  | .call argumentCount => (a.emitOp .call).emitU8 argumentCount
  | .ret0 => a.emitOp .ret0
  | .ret1 => a.emitOp .ret1
  | .jump address => (a.emitOp .jump).emitU32 address
  | .jumpIfZero address => (a.emitOp .jumpIfZero).emitU32 address
  | .jumpIfNotZero address => (a.emitOp .jumpIfNotZero).emitU32 address
  | .binary op => a.emitOp (.binary op)
  | .neg => a.emitOp .neg
  | .not => a.emitOp .not

/-- Append a branch to a known address, of which the lowest 32 bits are kept. -/
def emitTo (a : Assembler) (branch : Branch) (address : Nat) : Assembler :=
  (a.emitOp branch.opcode).emitU32 (UInt32.ofNat address)

/-- Append a branch whose address the label stands for: the byte of its opcode, then four bytes
of zero that the label keeps the place of. -/
def emitBranch (a : Assembler) (branch : Branch) : Assembler × Label :=
  let opened := a.emitOp branch.opcode
  (opened.emitU32 0, ⟨opened.offset⟩)

/-- What the emitters append for an instruction, in the widths of their own, is what decoding reads
for it. -/
theorem toList_code_emit (a : Assembler) (i : Instruction) :
    (a.emit i).code.toList = a.code.toList ++ i.encode := by
  cases i <;>
    simp [emit, emitOp, emitU8, emitU16, emitU32, emitF64, Instruction.encode, Instruction.opcode,
      Instruction.operand, Opcode.operandSize, littleEndian]

/-- The offset after an instruction is behind its bytes. -/
theorem offset_emit (a : Assembler) (i : Instruction) :
    (a.emit i).offset = a.offset + i.size := by
  rw [offset, ← Array.length_toList, toList_code_emit]
  simp [offset]

/-- A branch to a known address is emitted like its instruction. -/
theorem emitTo_eq (a : Assembler) (branch : Branch) (address : Nat) :
    a.emitTo branch address = a.emit (branch.to (UInt32.ofNat address)) := by
  cases branch <;> rfl

/-- A branch with a label is emitted like its instruction with address zero. -/
theorem emitBranch_fst (a : Assembler) (branch : Branch) :
    (a.emitBranch branch).1 = a.emit (branch.to 0) := by
  cases branch <;> rfl

/-- The label keeps the place behind the opcode. -/
theorem position_emitBranch (a : Assembler) (branch : Branch) :
    (a.emitBranch branch).2.position = a.offset + 1 := by
  simp [emitBranch, emitOp, offset]

/-- Write bytes over those that stand from a position on. -/
def overwrite (code : Code) (position : Nat) : Bytes → Code
  | [] => code
  | b :: bs => overwrite (code.setIfInBounds position b) (position + 1) bs

/-- Let the label's address be the current offset. -/
def bind (a : Assembler) (label : Label) : Assembler :=
  { a with code := overwrite a.code label.position (littleEndian 4 a.offset) }

end Assembler

end Swarm
