import Swarm.Decimal.Remainder
import Swarm.Machine.State

/-!
# Executing instructions

An instruction changes the machine and may fail; what it did before it failed
stays. Calling a native function only makes its frame: the instruction then
says which native function is to run.
-/

namespace Swarm

/-- A change of the machine that may fail. -/
abbrev Action (ν : Type) := EStateM RuntimeError (Machine ν)

namespace BinaryOp

/-- The word for an operator in errors about its operands. -/
def operation : BinaryOp → String
  | .add => "addition"
  | .sub => "subtraction"
  | .mul => "multiplication"
  | .div => "division"
  | .mod => "modulo"
  | _ => "comparison"

/-- An operand as a floating-point number. -/
def number (op : BinaryOp) : Value → Except RuntimeError Float
  | .int n => .ok n.toFloat
  | .float x => .ok x
  | other => .error (.typeError op.operation "number" other.kind)

/-- The result for two integers; sums, differences and products wrap. -/
def onInts (op : BinaryOp) (a b : Int64) : Except RuntimeError Value :=
  match op with
  | .add => .ok (.int (a + b))
  | .sub => .ok (.int (a - b))
  | .mul => .ok (.int (a * b))
  | .div => if b = 0 then .error .divisionByZero else .ok (.int (a / b))
  | .mod => if b = 0 then .error .divisionByZero else .ok (.int (a % b))
  | .lt => .ok (.ofBool (a < b))
  | .lte => .ok (.ofBool (a ≤ b))
  | .gt => .ok (.ofBool (b < a))
  | .gte => .ok (.ofBool (b ≤ a))
  | .eq => .ok (.ofBool (a == b))
  | .neq => .ok (.ofBool (a != b))
  | .and => .ok (.ofBool (a != 0 && b != 0))
  | .or => .ok (.ofBool (a != 0 || b != 0))

/-- The result for two floating-point numbers. -/
def onFloats (op : BinaryOp) (a b : Float) : Value :=
  match op with
  | .add => .float (a + b)
  | .sub => .float (a - b)
  | .mul => .float (a * b)
  | .div => .float (a / b)
  | .mod => .float (Decimal.remainder a b)
  | .lt => .ofBool (a < b)
  | .lte => .ofBool (a ≤ b)
  | .gt => .ofBool (b < a)
  | .gte => .ofBool (b ≤ a)
  | .eq => .ofBool (a == b)
  | .neq => .ofBool (a != b)
  | .and | .or => .ofBool true

/-- The result of an operator. Truth and equality are defined for all values, everything else
for numbers; two integers give an integer, any other two a floating-point number. -/
def apply (op : BinaryOp) (left right : Value) : Except RuntimeError Value :=
  match op with
  | .and => .ok (.ofBool (left.isTruthy && right.isTruthy))
  | .or => .ok (.ofBool (left.isTruthy || right.isTruthy))
  | .eq => .ok (.ofBool (left.looselyEquals right))
  | .neq => .ok (.ofBool (!left.looselyEquals right))
  | _ =>
    match left, right with
    | .int a, .int b => op.onInts a b
    | _, _ => do
      let a ← op.number left
      let b ← op.number right
      return op.onFloats a b

end BinaryOp

namespace Value

/-- The negation of a number. -/
def negate : Value → Except RuntimeError Value
  | .int n => .ok (.int (-n))
  | .float x => .ok (.float (-x))
  | other => .error (.typeError "negation" "number" other.kind)

/-- The table that a value must hold. -/
def expectTable (operation : String) : Value → Except RuntimeError TableId
  | .table id => .ok id
  | other => .error (.typeError operation "table" other.kind)

/-- The key that a value must be. -/
def expectKey (v : Value) : Except RuntimeError TableKey :=
  match TableKey.ofValue? v with
  | some key => .ok key
  | none => .error (.invalidTableKey v.kind)

end Value

namespace Machine

variable {ν : Type}

/-- Fail if the result of a calculation is an error. -/
def require {α : Type} : Except RuntimeError α → Action ν α
  | .ok a => pure a
  | .error error => throw error

/-- The size of the stack that belongs to the callers of the innermost frame. -/
def stackFloor (m : Machine ν) : Nat :=
  match m.frames.back? with
  | none => 0
  | some frame => frame.stackBase

/-- Push a value, if there is room for it. -/
def push (value : Value) : Action ν Unit := fun m =>
  if m.limits.maxStack ≤ m.stack.size then .error .stackOverflow m
  else .ok () { m with stack := m.stack.push value }

/-- Pop a value that the innermost frame has pushed. -/
def pop : Action ν Value := fun m =>
  if m.stack.size ≤ m.stackFloor then .error .stackUnderflow m
  else match m.stack.back? with
    | none => .error .stackUnderflow m
    | some value => .ok value { m with stack := m.stack.pop }

/-- The topmost value of the whole stack. -/
def top : Action ν Value := fun m =>
  match m.stack.back? with
  | none => .error .stackUnderflow m
  | some value => .ok value m

/-- Make a frame whose local symbols are the values of the stack from `base` on. -/
def enterFrame (m : Machine ν) (kind : FrameKind) (base : Nat) : Machine ν :=
  { m with
    frames := m.frames.push
      { kind, returnPc := m.pc, locals := m.stack.extract base m.stack.size, stackBase := base }
    stack := m.stack.shrink base }

/-- Call the value below the topmost arguments. A function of the script is entered at once;
a native function is returned, to be run in the frame that was made for it. -/
def call (argumentCount : Nat) : Action ν (Option ν) := fun m =>
  if h : m.stack.size < argumentCount + 1 then .error .stackUnderflow m
  else if m.limits.maxCallDepth ≤ m.frames.size then .error .callDepthExceeded m
  else
    let base := m.stack.size - (argumentCount + 1)
    match m.stack[base] with
    | .closure (.script address) =>
      .ok none { m.enterFrame .function base with pc := address.toNat }
    | .closure (.native id) =>
      match m.store.natives[id]? with
      | none => .error .unknownNative m
      | some entry => .ok (some entry.native) (m.enterFrame .native base)
    | other => .error (.notCallable other.kind) m

/-- End the innermost frame and push its result for the caller. -/
def ret (value : Value) : Action ν Unit := fun m =>
  match m.frames.back? with
  | none => .error .stackUnderflow m
  | some frame =>
    push value
      { m with
        frames := m.frames.pop
        stack := m.stack.shrink frame.stackBase
        pc := frame.returnPc }

/-- End the body of the script. -/
def done : Action ν Unit := fun m =>
  match m.frames.back? with
  | none => .error .stackUnderflow m
  | some frame =>
    match frame.kind with
    | .script =>
      .ok () { m with frames := m.frames.pop, stack := m.stack.shrink frame.stackBase }
    | _ => .error .unexpectedDone { m with frames := m.frames.pop }

/-- Give a local symbol of the innermost frame a value. -/
def storeLocal (index : Nat) (value : Value) : Action ν Unit := fun m =>
  if m.frames.isEmpty then .error .stackUnderflow m
  else
    .ok () { m with
      frames := m.frames.modify (m.frames.size - 1) fun f => f.setLocal index value }

/-- The id of a string of the program. -/
def programString (m : Machine ν) (index : UInt16) : StringId :=
  m.programStrings[index.toNat]?.getD ⟨0⟩

/-- Continue at an address. -/
def jump (address : UInt32) : Action ν Unit :=
  modify fun m => { m with pc := address.toNat }

/-- Carry out an instruction; the native function that is returned is to run next. -/
def execute : Instruction → Action ν (Option ν)
  | .done => do done; return none
  | .nop => return none
  | .pushNil => do push .nil; return none
  | .pushInt value => do push (.int value.toInt64); return none
  | .pushFloat bits => do push (.float (Float.ofBits bits)); return none
  | .pushString string => do push (.str ((← get).programString string)); return none
  | .pushClosure address => do push (.closure (.script address)); return none
  | .pushTable => do
    let id ← modifyGet fun m => let (m, id) := m.withStore Store.newTable; (id, m)
    push (.table id)
    return none
  | .dup => do push (← top); return none
  | .pop => do let _ ← pop; return none
  | .tablePut => do
    let value ← pop
    let keyValue ← pop
    let tableValue ← pop
    let id ← require (tableValue.expectTable "table put")
    let key ← require keyValue.expectKey
    modify fun m => m.mapStore fun s => { s with heap := s.heap.put id key value }
    return none
  | .tableGet => do
    let keyValue ← pop
    let tableValue ← pop
    let id ← require (tableValue.expectTable "table get")
    let key ← require keyValue.expectKey
    push (((← get).store.heap.table id).get key)
    return none
  | .globalLoad name => do
    let m ← get
    push (m.store.globals[m.programString name]?.getD .nil)
    return none
  | .globalStore name => do
    let value ← pop
    modify fun m =>
      let id := m.programString name
      m.mapStore fun s => { s with globals := s.globals.insert id value }
    return none
  | .localLoad index => do
    push (← require ((← get).local? index.toNat))
    return none
  | .localStore index => do storeLocal index.toNat (← pop); return none
  | .call argumentCount => call argumentCount.toNat
  | .ret0 => do ret .nil; return none
  | .ret1 => do ret (← pop); return none
  | .jump address => do jump address; return none
  | .jumpIfZero address => do
    if !(← pop).isTruthy then jump address
    return none
  | .jumpIfNotZero address => do
    if (← pop).isTruthy then jump address
    return none
  | .binary op => do
    let right ← pop
    let left ← pop
    push (← require (op.apply left right))
    return none
  | .neg => do push (← require (← pop).negate); return none
  | .not => do push (.ofBool !(← pop).isTruthy); return none

/-- Carry out the instruction at the current position. -/
def executeNext : Action ν (Option ν) := do
  let m ← get
  match m.program.code.decodeAt m.pc with
  | .error error => throw (.decode error)
  | .ok i =>
    modify fun m => { m with pc := m.pc + i.size }
    execute i

end Machine

end Swarm
