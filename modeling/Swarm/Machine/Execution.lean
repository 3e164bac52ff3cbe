import Swarm.Machine.Execute
import Swarm.Machine.Native

/-!
# Executions

An execution is a machine at work. It is in the middle of an activation, which
runs until only the frames below it are left; native functions that wait for an
activation to end form a stack of their own. One step carries out one
instruction, begins one native function, ends one activation or lets one native
function go on.
-/

namespace Swarm

/-- What an activation runs. -/
inductive Purpose where
  /-- The body of the script; it has no result. -/
  | script
  /-- A call; its result is the topmost value. -/
  | call
  deriving DecidableEq, Repr

/-- A stretch of execution that ends when only the frames below it are left. -/
structure Activation where
  /-- The number of frames below it. -/
  stop : Nat
  /-- What it runs. -/
  purpose : Purpose
  deriving DecidableEq, Repr

/-- A native function that waits for an activation to end. -/
structure Suspended (κ : Type) where
  /-- The activation that the native function runs in. -/
  activation : Activation
  /-- The instruction that called it; there is none if the activation began with it. -/
  origin : Option Nat
  /-- What is left for it to do. -/
  rest : κ

/-- What an execution does next. -/
inductive Phase (ν : Type) where
  /-- Carry out instructions. -/
  | running
  /-- Begin a native function whose frame has been made. -/
  | entering (native : ν) (origin : Option Nat)
  /-- Leave the activation with a result. -/
  | leaving (result : Except RuntimeError Value)

/-- A machine at work. -/
structure Execution (ν κ σ : Type) where
  machine : Machine ν
  world : World σ
  /-- The innermost activation. -/
  activation : Activation
  phase : Phase ν
  /-- The native functions that wait, the innermost first. -/
  waiting : List (Suspended κ)

/-- How an entry into a machine ended. -/
structure Ending (ν σ α : Type) where
  /-- The value it ended with, or why it failed. -/
  result : Except RuntimeError α
  machine : Machine ν
  world : World σ

namespace Machine

variable {ν : Type}

/-- Push a value with its arguments and call it. -/
def pushCall (callee : Value) (arguments : List Value) : Action ν (Option ν) := do
  push callee
  arguments.forM push
  call arguments.length

/-- Make the frame for the body of the script and go to its start. -/
def enterScript (m : Machine ν) : Machine ν :=
  { m with
    frames := m.frames.push
      { kind := .script, returnPc := 0, locals := #[.nil], stackBase := m.stack.size }
    pc := 0 }

end Machine

namespace Execution

variable {ν κ σ : Type}

/-- Fail at a position in the code: the fault is recorded if it is the first one. -/
def fail (m : Machine ν) (w : World σ) (activation : Activation) (waiting : List (Suspended κ))
    (pc : Nat) (error : RuntimeError) : Execution ν κ σ where
  machine := m.recordFault pc error
  world :=
    if m.isReady then
      w.report .debug s!"vm {m.contextId.toNat}: faulted at offset {pc}: {error.message}"
    else w
  activation := activation
  phase := .leaving (.error error)
  waiting := waiting

/-- Begin to call a value, unless the machine has faulted. -/
def startCall (m : Machine ν) (w : World σ) (waiting : List (Suspended κ)) (callee : Value)
    (arguments : List Value) : Execution ν κ σ :=
  let activation : Activation := ⟨m.frames.size, .call⟩
  if m.isReady then
    match Machine.pushCall callee arguments m with
    | .ok none m => ⟨m, w, activation, .running, waiting⟩
    | .ok (some native) m => ⟨m, w, activation, .entering native none, waiting⟩
    | .error error m => fail m w activation waiting m.pc error
  else ⟨m, w, activation, .leaving (.error .halted), waiting⟩

/-- Begin to run the body of the script, unless the machine has faulted. -/
def startScript (m : Machine ν) (w : World σ) (waiting : List (Suspended κ)) :
    Execution ν κ σ :=
  let activation : Activation := ⟨0, .script⟩
  if m.isReady then ⟨m.enterScript, w, activation, .running, waiting⟩
  else ⟨m, w, activation, .leaving (.error .halted), waiting⟩

/-- Do what a native function asks for. -/
def follow (m : Machine ν) (w : World σ) (activation : Activation) (waiting : List (Suspended κ))
    (origin : Option Nat) : Move κ → Execution ν κ σ
  | .finish (.ok value) =>
    match Machine.ret value m with
    | .ok () m => ⟨m, w, activation, .running, waiting⟩
    | .error error m => fail m w activation waiting (origin.getD m.pc) error
  | .finish (.error error) => fail m w activation waiting (origin.getD m.pc) error
  | .call callee arguments rest =>
    startCall m w (⟨activation, origin, rest⟩ :: waiting) callee arguments
  | .runScript rest => startScript m w (⟨activation, origin, rest⟩ :: waiting)

/-- End an activation whose frames are gone. -/
def close (m : Machine ν) (w : World σ) (activation : Activation) (waiting : List (Suspended κ)) :
    Execution ν κ σ :=
  match activation.purpose with
  | .script => ⟨m, w, activation, .leaving (.ok .nil), waiting⟩
  | .call =>
    match Machine.pop m with
    | .ok value m => ⟨m, w, activation, .leaving (.ok value), waiting⟩
    | .error error m => ⟨m, w, activation, .leaving (.error error), waiting⟩

/-- Carry out one instruction. -/
def advance (m : Machine ν) (w : World σ) (activation : Activation)
    (waiting : List (Suspended κ)) : Execution ν κ σ :=
  let pc := m.pc
  match Machine.executeNext m with
  | .ok none m => ⟨m, w, activation, .running, waiting⟩
  | .ok (some native) m => ⟨m, w, activation, .entering native (some pc), waiting⟩
  | .error error m => fail m w activation waiting pc error

/-- One step. An execution that has left its outermost activation stays as it is. -/
def step (sys : NativeSystem ν κ σ) : Execution ν κ σ → Execution ν κ σ
  | ⟨m, w, activation, .running, waiting⟩ =>
    if activation.stop < m.frames.size then advance m w activation waiting
    else close m w activation waiting
  | ⟨m, w, activation, .entering native origin, waiting⟩ =>
    let reply := sys.enter native m w
    follow { m with store := reply.store } reply.world activation waiting origin reply.move
  | ⟨m, w, _, .leaving result, ⟨activation, origin, rest⟩ :: waiting⟩ =>
    let reply := sys.resume rest result m w
    follow { m with store := reply.store } reply.world activation waiting origin reply.move
  | ⟨m, w, activation, .leaving result, []⟩ => ⟨m, w, activation, .leaving result, []⟩

/-- The steps up to the end of the outermost activation; there is no answer if it takes more
steps than the fuel. -/
def run (sys : NativeSystem ν κ σ) : Nat → Execution ν κ σ → Option (Ending ν σ Value)
  | _, ⟨m, w, _, .leaving result, []⟩ => some ⟨result, m, w⟩
  | 0, _ => none
  | fuel + 1, e => run sys fuel (e.step sys)

end Execution

end Swarm
