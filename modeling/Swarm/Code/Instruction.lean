import Swarm.Bytes
import Swarm.Code.Opcode
import Swarm.Decimal.Shortest

/-!
# Instructions

An instruction is an opcode with its operand. It is encoded as the opcode byte
and the operand in little-endian order. The operand of a floating-point literal
is kept as bits, so that encoding loses nothing of it.
-/

namespace Swarm

/-- An opcode together with its operand. -/
inductive Instruction where
  | done
  | nop
  | pushNil
  | pushInt (value : Int32)
  | pushFloat (bits : UInt64)
  | pushString (string : UInt16)
  | pushClosure (address : UInt32)
  | pushTable
  | dup
  | pop
  | tablePut
  | tableGet
  | globalLoad (name : UInt16)
  | globalStore (name : UInt16)
  | localLoad (index : UInt16)
  | localStore (index : UInt16)
  | call (argumentCount : UInt8)
  | ret0
  | ret1
  | jump (address : UInt32)
  | jumpIfZero (address : UInt32)
  | jumpIfNotZero (address : UInt32)
  | binary (op : BinaryOp)
  | neg
  | not
  deriving DecidableEq, Repr

namespace Instruction

/-- The opcode of an instruction. -/
def opcode : Instruction → Opcode
  | .done => .done
  | .nop => .nop
  | .pushNil => .pushNil
  | .pushInt _ => .pushInt
  | .pushFloat _ => .pushFloat
  | .pushString _ => .pushString
  | .pushClosure _ => .pushClosure
  | .pushTable => .pushTable
  | .dup => .dup
  | .pop => .pop
  | .tablePut => .tablePut
  | .tableGet => .tableGet
  | .globalLoad _ => .globalLoad
  | .globalStore _ => .globalStore
  | .localLoad _ => .localLoad
  | .localStore _ => .localStore
  | .call _ => .call
  | .ret0 => .ret0
  | .ret1 => .ret1
  | .jump _ => .jump
  | .jumpIfZero _ => .jumpIfZero
  | .jumpIfNotZero _ => .jumpIfNotZero
  | .binary op => .binary op
  | .neg => .neg
  | .not => .not

/-- The operand as a natural number; zero where there is none. -/
def operand : Instruction → Nat
  | .pushInt value => value.toUInt32.toNat
  | .pushFloat bits => bits.toNat
  | .pushString string => string.toNat
  | .globalLoad name | .globalStore name => name.toNat
  | .localLoad index | .localStore index => index.toNat
  | .call argumentCount => argumentCount.toNat
  | .pushClosure address | .jump address | .jumpIfZero address | .jumpIfNotZero address =>
    address.toNat
  | _ => 0

/-- The instruction with the given opcode whose operand is a number, kept to the width of
the operand. -/
def ofOperand (n : Nat) : Opcode → Instruction
  | .done => .done
  | .nop => .nop
  | .pushNil => .pushNil
  | .pushInt => .pushInt (UInt32.ofNat n).toInt32
  | .pushFloat => .pushFloat (UInt64.ofNat n)
  | .pushString => .pushString (UInt16.ofNat n)
  | .pushClosure => .pushClosure (UInt32.ofNat n)
  | .pushTable => .pushTable
  | .dup => .dup
  | .pop => .pop
  | .tablePut => .tablePut
  | .tableGet => .tableGet
  | .globalLoad => .globalLoad (UInt16.ofNat n)
  | .globalStore => .globalStore (UInt16.ofNat n)
  | .localLoad => .localLoad (UInt16.ofNat n)
  | .localStore => .localStore (UInt16.ofNat n)
  | .call => .call (UInt8.ofNat n)
  | .ret0 => .ret0
  | .ret1 => .ret1
  | .jump => .jump (UInt32.ofNat n)
  | .jumpIfZero => .jumpIfZero (UInt32.ofNat n)
  | .jumpIfNotZero => .jumpIfNotZero (UInt32.ofNat n)
  | .binary op => .binary op
  | .neg => .neg
  | .not => .not

/-- The number of bytes of an encoded instruction. -/
def size (i : Instruction) : Nat := 1 + i.opcode.operandSize

/-- The bytes that are read as the instruction: the byte of its opcode, then the operand in the
width that the opcode tells. -/
def encode (i : Instruction) : Bytes :=
  i.opcode.toByte :: littleEndian i.opcode.operandSize i.operand

/-- An instruction that is made of an operation code has that code. -/
@[simp] theorem opcode_ofOperand (n : Nat) (op : Opcode) : (ofOperand n op).opcode = op := by
  cases op <;> rfl

/-- Opcode and operand determine the instruction. -/
@[simp] theorem ofOperand_operand (i : Instruction) : ofOperand i.operand i.opcode = i := by
  cases i <;> simp [opcode, operand, ofOperand]

/-- The operand of an instruction fits the width of its operation code. -/
theorem operand_lt (i : Instruction) : i.operand < wordRange i.opcode.operandSize := by
  cases i with
  | pushInt value => exact value.toUInt32.toNat_lt
  | pushFloat bits => exact bits.toNat_lt
  | pushString n | globalLoad n | globalStore n | localLoad n | localStore n => exact n.toNat_lt
  | call n => exact n.toNat_lt
  | pushClosure n | jump n | jumpIfZero n | jumpIfNotZero n => exact n.toNat_lt
  | _ => simp [operand, opcode, Opcode.operandSize, wordRange]

/-- A number that fits into the operand is the operand. -/
theorem operand_ofOperand {n : Nat} {op : Opcode} (h : n < wordRange op.operandSize) :
    (ofOperand n op).operand = n := by
  cases op <;> simp_all [ofOperand, operand, Opcode.operandSize, wordRange]

/-- No instruction is empty. -/
theorem size_pos (i : Instruction) : 0 < i.size := by
  unfold size
  omega

/-- The encoding of an instruction is as long as its size. -/
@[simp] theorem length_encode (i : Instruction) : i.encode.length = i.size := by
  simp [encode, size, Nat.add_comm]

/-- The text of a floating-point literal. -/
def floatText (bits : UInt64) : String := (Decimal.Format.double.unpack bits.toNat).shortest

/-- An instruction as it is written in listings. -/
def text : Instruction → String
  | .pushInt value => s!"PushInt {value.toInt}"
  | .pushFloat bits => s!"PushFloat {floatText bits}"
  | .pushString string => s!"PushString #{string.toNat}"
  | .pushClosure address => s!"PushClosure @{address.toNat}"
  | .globalLoad name => s!"GlobalLoad #{name.toNat}"
  | .globalStore name => s!"GlobalStore #{name.toNat}"
  | .localLoad index => s!"LocalLoad l{index.toNat}"
  | .localStore index => s!"LocalStore l{index.toNat}"
  | .call argumentCount => s!"Call {argumentCount.toNat}"
  | .jump address => s!"Jump @{address.toNat}"
  | .jumpIfZero address => s!"JumpIfZero @{address.toNat}"
  | .jumpIfNotZero address => s!"JumpIfNotZero @{address.toNat}"
  | i => i.opcode.name

end Instruction

end Swarm
