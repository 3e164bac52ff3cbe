/-!
# Opcodes

An instruction begins with one opcode byte, and the opcode alone decides how
many operand bytes follow. Thirteen opcodes take two operands from the stack
and leave one result; they are grouped as binary operators.
-/

namespace Swarm

/-- Operators that replace the two topmost values by one result. -/
inductive BinaryOp where
  | add | sub | mul | div | mod
  | and | or
  | eq | neq | lt | lte | gt | gte
  deriving DecidableEq, Repr

/-- The operation that an instruction performs, without its operand. -/
inductive Opcode where
  /-- End the body of the script. -/
  | done
  /-- Do nothing. -/
  | nop
  /-- Push the empty value. -/
  | pushNil
  /-- Push an integer; the operand is a signed 32-bit word. -/
  | pushInt
  /-- Push a floating-point number; the operand is a 64-bit word. -/
  | pushFloat
  /-- Push a program string; the operand is its 16-bit index. -/
  | pushString
  /-- Push a function of the script; the operand is its 32-bit address. -/
  | pushClosure
  /-- Push a new empty table. -/
  | pushTable
  /-- Push the topmost value again. -/
  | dup
  /-- Drop the topmost value. -/
  | pop
  /-- Store a value in a table under a key. -/
  | tablePut
  /-- Replace a table and a key by the value stored there. -/
  | tableGet
  /-- Push a global variable; the operand is the 16-bit index of its name. -/
  | globalLoad
  /-- Pop into a global variable; the operand is the 16-bit index of its name. -/
  | globalStore
  /-- Push a local symbol of the frame; the operand is its 16-bit index. -/
  | localLoad
  /-- Pop into a local symbol of the frame; the operand is its 16-bit index. -/
  | localStore
  /-- Call the value below the arguments; the operand is their 8-bit number. -/
  | call
  /-- Return the empty value. -/
  | ret0
  /-- Return the topmost value. -/
  | ret1
  /-- Continue at the 32-bit address. -/
  | jump
  /-- Pop, and continue at the 32-bit address if the value is false. -/
  | jumpIfZero
  /-- Pop, and continue at the 32-bit address if the value is true. -/
  | jumpIfNotZero
  /-- Apply a binary operator. -/
  | binary (op : BinaryOp)
  /-- Negate a number. -/
  | neg
  /-- Replace a value by the negation of its truth. -/
  | not
  deriving DecidableEq, Repr

namespace BinaryOp

/-- The spelling of an operator in listings. -/
def name : BinaryOp → String
  | .add => "Add" | .sub => "Sub" | .mul => "Mul" | .div => "Div" | .mod => "Mod"
  | .and => "And" | .or => "Or"
  | .eq => "Eq" | .neq => "Neq" | .lt => "Lt" | .lte => "Lte" | .gt => "Gt" | .gte => "Gte"

/-- Every operator, in the order of their opcode bytes. -/
def all : List BinaryOp :=
  [.add, .sub, .mul, .div, .mod, .and, .or, .eq, .neq, .lt, .lte, .gt, .gte]

end BinaryOp

namespace Opcode

/-- Every opcode; the byte of an opcode is its place in this list. -/
def all : List Opcode :=
  [.done, .nop, .pushNil, .pushInt, .pushFloat, .pushString, .pushClosure, .pushTable,
    .dup, .pop, .tablePut, .tableGet, .globalLoad, .globalStore, .localLoad, .localStore,
    .call, .ret0, .ret1, .jump, .jumpIfZero, .jumpIfNotZero,
    .binary .add, .binary .sub, .binary .mul, .binary .div, .binary .mod, .neg, .not,
    .binary .and, .binary .or, .binary .eq, .binary .neq, .binary .lt, .binary .lte,
    .binary .gt, .binary .gte]

/-- The number of opcodes; all bytes from here on are invalid. -/
def count : Nat := all.length

/-- The byte that stands for an opcode. -/
def toByte : Opcode → UInt8
  | .done => 0 | .nop => 1 | .pushNil => 2 | .pushInt => 3 | .pushFloat => 4
  | .pushString => 5 | .pushClosure => 6 | .pushTable => 7 | .dup => 8 | .pop => 9
  | .tablePut => 10 | .tableGet => 11 | .globalLoad => 12 | .globalStore => 13
  | .localLoad => 14 | .localStore => 15 | .call => 16 | .ret0 => 17 | .ret1 => 18
  | .jump => 19 | .jumpIfZero => 20 | .jumpIfNotZero => 21
  | .binary .add => 22 | .binary .sub => 23 | .binary .mul => 24 | .binary .div => 25
  | .binary .mod => 26 | .neg => 27 | .not => 28 | .binary .and => 29 | .binary .or => 30
  | .binary .eq => 31 | .binary .neq => 32 | .binary .lt => 33 | .binary .lte => 34
  | .binary .gt => 35 | .binary .gte => 36

/-- The opcode that a byte stands for. -/
def ofByte? (b : UInt8) : Option Opcode :=
  match b.toNat with
  | 0 => some .done | 1 => some .nop | 2 => some .pushNil | 3 => some .pushInt
  | 4 => some .pushFloat | 5 => some .pushString | 6 => some .pushClosure
  | 7 => some .pushTable | 8 => some .dup | 9 => some .pop | 10 => some .tablePut
  | 11 => some .tableGet | 12 => some .globalLoad | 13 => some .globalStore
  | 14 => some .localLoad | 15 => some .localStore | 16 => some .call | 17 => some .ret0
  | 18 => some .ret1 | 19 => some .jump | 20 => some .jumpIfZero | 21 => some .jumpIfNotZero
  | 22 => some (.binary .add) | 23 => some (.binary .sub) | 24 => some (.binary .mul)
  | 25 => some (.binary .div) | 26 => some (.binary .mod) | 27 => some .neg | 28 => some .not
  | 29 => some (.binary .and) | 30 => some (.binary .or) | 31 => some (.binary .eq)
  | 32 => some (.binary .neq) | 33 => some (.binary .lt) | 34 => some (.binary .lte)
  | 35 => some (.binary .gt) | 36 => some (.binary .gte)
  | _ => none

/-- The byte of an opcode stands for it. -/
@[simp] theorem ofByte?_toByte (op : Opcode) : ofByte? op.toByte = some op := by
  cases op with
  | binary op => cases op <;> rfl
  | _ => rfl

/-- A byte stands for at most the opcode whose byte it is. -/
theorem toByte_of_ofByte? {b : UInt8} {op : Opcode} (h : ofByte? b = some op) : op.toByte = b := by
  apply UInt8.toNat_inj.1
  unfold ofByte? at h
  split at h <;> cases h <;> simp_all [toByte]

/-- The number of operand bytes after the opcode byte. -/
def operandSize : Opcode → Nat
  | .pushInt | .pushClosure | .jump | .jumpIfZero | .jumpIfNotZero => 4
  | .pushFloat => 8
  | .pushString | .globalLoad | .globalStore | .localLoad | .localStore => 2
  | .call => 1
  | _ => 0

/-- Whether the operand is an address in the code. -/
def hasAddress : Opcode → Bool
  | .pushClosure | .jump | .jumpIfZero | .jumpIfNotZero => true
  | _ => false

/-- The operator of an opcode that is a binary one. -/
def binary? : Opcode → Option BinaryOp
  | .binary op => some op
  | _ => none

/-- The spelling of an opcode in listings. -/
def name : Opcode → String
  | .done => "Done" | .nop => "Nop" | .pushNil => "PushNil" | .pushInt => "PushInt"
  | .pushFloat => "PushFloat" | .pushString => "PushString" | .pushClosure => "PushClosure"
  | .pushTable => "PushTable" | .dup => "Dup" | .pop => "Pop" | .tablePut => "TablePut"
  | .tableGet => "TableGet" | .globalLoad => "GlobalLoad" | .globalStore => "GlobalStore"
  | .localLoad => "LocalLoad" | .localStore => "LocalStore" | .call => "Call"
  | .ret0 => "Ret0" | .ret1 => "Ret1" | .jump => "Jump" | .jumpIfZero => "JumpIfZero"
  | .jumpIfNotZero => "JumpIfNotZero" | .binary op => op.name | .neg => "Neg" | .not => "Not"

end Opcode

end Swarm
