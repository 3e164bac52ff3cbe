import Swarm.Bridge.Diagnosis
import Swarm.Machine.Collect

/-!
# Running loaded scripts

The first step of a script runs its body and its function `init`. Every step
lets it hear the messages that wait, calls its function `step` and releases the
strings that it does not need any more. A script that faults stops for good and
leaves all others alone. Unloading calls the function `destroy` of every script
that has not faulted.

What takes more steps of execution than the fuel has no answer.
-/

namespace Swarm

/-- How a step of a script ended. -/
inductive StepOutcome where
  /-- The script can go on. -/
  | ready
  /-- The script has stopped for good; the text is its diagnosis. -/
  | faulted (diagnosis : String)
  deriving DecidableEq, Repr

/-- Work on one machine that ends at the first error and keeps what was done before it. -/
abbrev Turn (σ : Type) := ExceptT RuntimeError (StateT (Instance × World σ) Option)

namespace Turn

variable {σ α : Type}

/-- Enter the machine. -/
def enter (f : Machine Native → World σ → Option (Ending Native σ α)) : Turn σ α :=
  fun (i, w) => (f i.machine w).map fun ending =>
    (ending.result, { i with machine := ending.machine }, ending.world)

/-- Change what is known about the script. -/
def update (f : Instance → Instance) : Turn σ Unit := modify fun (i, w) => (f i, w)

/-- Report something about the script. -/
def report (text : Instance → String) : Turn σ Unit :=
  modify fun (i, w) => (i, w.report .debug (text i))

/-- Release the strings that the script does not need any more. -/
def releaseStrings : Turn σ Unit :=
  modify fun (i, w) =>
    let (_, store, w) := i.machine.releaseStrings w
    ({ i with machine := { i.machine with store } }, w)

end Turn

namespace Instance

variable {σ : Type}

/-- Run the body of the script and its function `init`. -/
def begin (hooks : HookTable σ) (fuel : Nat) : Turn σ Unit := do
  Turn.update fun i => { i with stepped := true }
  Turn.enter (Machine.executeScript (Native.system hooks) fuel)
  let _ ← Turn.enter (Machine.callGlobal (Native.system hooks) fuel "init" [])
  Turn.update fun i => { i with state := .stepped }
  Turn.report fun i => s!"{i.handle.text}: initialized"

/-- One turn of the script. -/
def turn (hooks : HookTable σ) (fuel : Nat) : Turn σ Unit := do
  if !(← get).1.stepped then begin hooks fuel
  let _ ← Turn.enter (Machine.processInbound (Native.system hooks) fuel)
  let _ ← Turn.enter (Machine.callGlobal (Native.system hooks) fuel "step" [])
  Turn.releaseStrings

/-- What is reported when a turn ends with an error. -/
def reportFault (i : Instance) (error : RuntimeError) (w : World σ) : World σ :=
  let text := s!"{i.handle.text}: faulted: {error.message}\n{i.machine.dump}"
  (w.report .debug text).report .error i.diagnosis

/-- One turn of the script unless it has faulted, and how it ended. -/
def step (i : Instance) (hooks : HookTable σ) (fuel : Nat) (w : World σ) :
    Option (StepOutcome × Instance × World σ) :=
  if i.machine.isReady then
    (turn hooks fuel (i, w)).map fun
      | (.ok (), i, w) => (.ready, i, w)
      | (.error error, i, w) =>
        let i := { i with state := .faulted }
        (.faulted i.diagnosis, i, i.reportFault error w)
  else
    let i := { i with state := .faulted }
    some (.faulted i.diagnosis, i, w.report .debug s!"{i.handle.text}: not ready, step skipped")

/-- Call the function `destroy` of the script unless it has faulted. The diagnosis is there if
the script has faulted before or in this call. -/
def destroy (i : Instance) (hooks : HookTable σ) (fuel : Nat) (w : World σ) :
    Option (Option String × World σ) := do
  let (i, w) ←
    if i.machine.isReady then
      (Machine.callGlobal (Native.system hooks) fuel "destroy" [] i.machine w).map
        fun ending => ({ i with machine := ending.machine }, ending.world)
    else some (i, w)
  let destroyed (w : World σ) := w.report .debug s!"{i.handle.text}: destroyed"
  if i.machine.isReady then return (none, destroyed w)
  else
    let text := s!"{i.handle.text}: state at teardown\n{i.machine.dump}"
    return (some i.diagnosis, destroyed ((w.report .debug text).report .error i.diagnosis))

/-- Unload scripts in their order; the answer has the diagnoses of those that have faulted. -/
def destroyEach (hooks : HookTable σ) (fuel : Nat) :
    List Instance → World σ → Option (List String × World σ)
  | [], w => some ([], w)
  | i :: rest, w => do
    let (diagnosis, w) ← i.destroy hooks fuel w
    let (diagnoses, w) ← destroyEach hooks fuel rest w
    return (diagnosis.toList ++ diagnoses, w)

end Instance

namespace Bridge

variable {σ : Type}

/-- One turn of a machine. -/
def step (b : Bridge σ) (fuel : Nat) (vm : Handle) :
    Option (Except BridgeError (StepOutcome × Bridge σ)) :=
  match b.find vm with
  | .error error => some (.error error)
  | .ok i =>
    (i.step b.hooks fuel b.world).map fun (outcome, i, world) =>
      .ok (outcome, { b.replace vm i with world })

/-- Whether a machine has stopped for good. -/
def done (b : Bridge σ) (vm : Handle) : Except BridgeError Bool :=
  return !(← b.find vm).machine.isReady

/-- How far a script has come. -/
def execState (b : Bridge σ) (vm : Handle) : Except BridgeError ExecState :=
  return (← b.find vm).state

/-- Unload all machines; the answer has the diagnoses of those that have faulted. -/
def destroyAll (b : Bridge σ) (fuel : Nat) : Option (List String × Bridge σ) :=
  (Instance.destroyEach b.hooks fuel b.instances.toList b.world).map fun (diagnoses, world) =>
    (diagnoses,
      { b with instances := #[], world := world.report .info "Script execution stopped." })

end Bridge

end Swarm
