import Swarm.Bridge.Native
import Swarm.Debug.Table
import Swarm.Machine.Entry

/-!
# The bridge

A bridge holds the loaded machines in the order of their handles, the slots for
hooks, the library of the host and the world. Every operation names the machine
that it is about; naming one that is not loaded is the only way to misuse them.
-/

namespace Swarm

/-- How far a loaded script has come. -/
inductive ExecState where
  /-- Its body has not run. -/
  | unstepped
  /-- Its body has run. -/
  | stepped
  /-- It has stopped for good. -/
  | faulted
  /-- It has been unloaded. -/
  | destroyed
  deriving DecidableEq, Repr

/-- A loaded script and its machine. -/
structure Instance where
  handle : Handle
  /-- Path of the image. -/
  script : String
  machine : Machine Native
  /-- The debug-symbol table of the program. -/
  debug : Debug.Table
  state : ExecState := .unstepped
  /-- Whether the body has been entered. -/
  stepped : Bool := false

/-- The loaded machines and the host. -/
structure Bridge (σ : Type) where
  /-- The greatest number of machines. -/
  maxVms : Nat := 15
  /-- Bounds for every machine. -/
  limits : Limits := {}
  instances : Array Instance := #[]
  hooks : HookTable σ
  library : HostLibrary σ := {}
  world : World σ

/-- A bridge is misused. -/
inductive BridgeError where
  /-- No machine has this handle. -/
  | unknownVm (vm : Handle)
  deriving DecidableEq, Repr

/-- The wording of an error. -/
def BridgeError.message : BridgeError → String
  | .unknownVm vm => s!"unknown virtual machine {vm.text}"

namespace Bridge

variable {σ : Type}

/-- The number of slots unless it is chosen. -/
def defaultHookCapacity : Nat := 20

/-- A bridge with nothing loaded. -/
def new (maxVms hookCapacity : Nat) (limits : Limits) (host : σ) : Bridge σ where
  maxVms := maxVms
  limits := limits
  hooks := .empty hookCapacity
  world := { host }

/-- The number of loaded machines. -/
def vmCount (b : Bridge σ) : Nat := b.instances.size

/-- The loaded machine with a handle. -/
def instance? (b : Bridge σ) (vm : Handle) : Option Instance := b.instances[vm.index]?

/-- The loaded machine with a handle, which must exist. -/
def find (b : Bridge σ) (vm : Handle) : Except BridgeError Instance :=
  match b.instance? vm with
  | some i => .ok i
  | none => .error (.unknownVm vm)

/-- Put a machine back in its place. -/
def replace (b : Bridge σ) (vm : Handle) (i : Instance) : Bridge σ :=
  { b with instances := b.instances.setIfInBounds vm.index i }

/-- Report something. -/
def report (b : Bridge σ) (level : Level) (text : String) : Bridge σ :=
  { b with world := b.world.report level text }

/-- Change the store of a machine. -/
def updateStore (b : Bridge σ) (vm : Handle) (f : Store Native → Store Native) :
    Except BridgeError (Bridge σ) := do
  let i ← b.find vm
  return b.replace vm { i with machine := i.machine.mapStore f }

end Bridge

end Swarm
