import Swarm.Host.Hook
import Swarm.Machine.Builtin
import Swarm.Machine.Describe
import Swarm.Machine.Execution

/-!
# Native functions of loaded scripts

A loaded script has the functions that every script has, a function that prints
its arguments back to back on a line, and the hooks registered for it.
-/

namespace Swarm

/-- A native function of a loaded script. -/
inductive Native where
  /-- A function that every script has. -/
  | builtin (b : Builtin)
  /-- The function that prints. -/
  | print
  /-- The function that calls a slot on behalf of a machine. -/
  | hook (slot : Nat) (owner : Handle)
  deriving DecidableEq, Repr

namespace Native

variable {σ : Type}

/-- Begin a native function in its frame. -/
def enter (hooks : HookTable σ) (native : Native) (m : Machine Native) (w : World σ) :
    Reply Native Traversal σ :=
  match native with
  | .builtin b =>
    let (move, store) := b.enter m
    ⟨move, store, w⟩
  | .print =>
    ⟨.finish (.ok .nil), m.store, w.print (String.join (m.arguments.map m.describe))⟩
  | .hook slot owner =>
    let (result, store, w) := hooks.dispatch slot owner m w
    ⟨.finish result, store, w⟩

/-- The meaning of native functions under the bindings of the slots. -/
def system (hooks : HookTable σ) : NativeSystem Native Traversal σ where
  enter := enter hooks
  resume traversal result m w := ⟨traversal.resume result, m.store, w⟩

end Native

end Swarm
