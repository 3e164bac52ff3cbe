import Swarm.Journal
import Swarm.Machine.State

/-!
# Native functions

A native function reads the machine and may change its store and the world. To
call back into the machine it hands out the call together with what is left for
it to do, of some type `κ`, and goes on when the call has ended. It never
touches the stack, the frames or the fault itself.
-/

namespace Swarm

/-- What a native function asks for next. -/
inductive Move (κ : Type) where
  /-- End with a result. -/
  | finish (result : Except RuntimeError Value)
  /-- Call a value and go on with its result. -/
  | call (callee : Value) (arguments : List Value) (rest : κ)
  /-- Run the body of the script and go on after it. -/
  | runScript (rest : κ)

/-- What a native function has done so far. -/
structure Reply (ν κ σ : Type) where
  /-- What it asks for next. -/
  move : Move κ
  /-- The store after it. -/
  store : Store ν
  /-- The world after it. -/
  world : World σ

/-- The meaning of native functions. -/
structure NativeSystem (ν κ σ : Type) where
  /-- Begin a native function in its frame. -/
  enter : ν → Machine ν → World σ → Reply ν κ σ
  /-- Go on with the result of a call. -/
  resume : κ → Except RuntimeError Value → Machine ν → World σ → Reply ν κ σ

namespace Machine

variable {ν : Type}

/-- An argument that a native function must have been given. -/
def argument (m : Machine ν) (function : String) (index : Nat) : Except RuntimeError Value :=
  if m.localCount ≤ index then .error (.missingArgument function index) else m.local? index

end Machine

end Swarm
