import Swarm.Code.Decode
import Swarm.Machine.Value

/-!
# Run-time errors

The reasons for which the execution of a script stops.
-/

namespace Swarm

/-- Why an instruction, a native function or an entry into a machine failed. -/
inductive RuntimeError where
  /-- An instruction needs more values than the frame has pushed. -/
  | stackUnderflow
  /-- The stack has no room for another value. -/
  | stackOverflow
  /-- There is no room for another frame. -/
  | callDepthExceeded
  /-- An operand is of the wrong kind. -/
  | typeError (operation expected : String) (got : Kind)
  /-- The called value is not a function. -/
  | notCallable (got : Kind)
  /-- The called native function does not exist. -/
  | unknownNative
  /-- The frame has no local symbol with this index. -/
  | undefinedLocal (index : UInt16)
  /-- The value cannot be the key of a table. -/
  | invalidTableKey (got : Kind)
  /-- An integer is divided by zero. -/
  | divisionByZero
  /-- The body of the script ends inside a function. -/
  | unexpectedDone
  /-- No instruction starts where execution continues. -/
  | decode (error : DecodeError)
  /-- The machine has faulted before and runs nothing. -/
  | halted
  /-- A native function was called with too few arguments. -/
  | missingArgument (function : String) (index : Nat)
  /-- A native function failed. -/
  | raised (message : String)
  deriving DecidableEq, Repr

/-- The wording of an error. -/
def RuntimeError.message : RuntimeError → String
  | .stackUnderflow => "stack underflow"
  | .stackOverflow => "stack overflow"
  | .callDepthExceeded => "maximum call depth exceeded"
  | .typeError operation expected got =>
    s!"type error in {operation}: expected {expected}, got {got.name}"
  | .notCallable got => s!"attempt to call a {got.name} value"
  | .unknownNative => "attempt to call a unknown native value"
  | .undefinedLocal index => s!"local symbol #{index.toNat} is not defined"
  | .invalidTableKey got => s!"a {got.name} value cannot be a table key"
  | .divisionByZero => "division by zero"
  | .unexpectedDone => "script end reached inside a function"
  | .decode error => error.message
  | .halted => "virtual machine is not ready"
  | .missingArgument function index => s!"{function}: expected at least {index} argument(s)"
  | .raised message => message

end Swarm
