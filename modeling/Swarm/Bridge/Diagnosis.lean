import Swarm.Bridge.Basic

/-!
# Diagnoses

The diagnosis of a faulted script names the source position of the fault where
the debug-symbol table covers it, and the offset in the code otherwise.
-/

namespace Swarm

namespace Instance

/-- The place in the code that a diagnosis is about. -/
def faultPc (i : Instance) : Nat :=
  match i.machine.fault with
  | some fault => fault.pc
  | none => i.machine.pc

/-- What a diagnosis says about the fault. -/
def faultMessage (i : Instance) : String :=
  match i.machine.fault with
  | some fault => fault.error.message
  | none => "no error"

/-- The source position of the fault. -/
def faultLocation? (i : Instance) : Option Debug.Location :=
  if i.faultPc < 4294967296 then i.debug.lookup (UInt32.ofNat i.faultPc) else none

/-- The diagnosis of a script. -/
def diagnosis (i : Instance) : String :=
  let place := match i.faultLocation? with
    | some location => location.text
    | none => s!"bytecode offset {i.faultPc}"
  s!"{i.script}: execution terminated abnormally at {place}: {i.faultMessage}"

end Instance

namespace Bridge

variable {σ : Type}

/-- The diagnosis of a machine. -/
def explain (b : Bridge σ) (vm : Handle) : Except BridgeError String :=
  return (← b.find vm).diagnosis

/-- A snapshot of a machine. -/
def dump (b : Bridge σ) (vm : Handle) : Except BridgeError String :=
  return (← b.find vm).machine.dump

end Bridge

end Swarm
