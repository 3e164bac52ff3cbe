import Swarm.Bridge.Basic

/-!
# Hooks of loaded scripts

Registering a hook binds a function of the imported module to a slot and gives
the script a function of the same name that calls the slot. A registration that
fails changes nothing.
-/

namespace Swarm

namespace Bridge

variable {σ : Type}

/-- Make a module importable. -/
def installModule (b : Bridge σ) (m : HostModule σ) : Bridge σ :=
  let (library, world) := b.library.install m b.world
  { b with library, world }

/-- Import an installed module. -/
def importModule (b : Bridge σ) (name : String) : Except HookError (Bridge σ) := do
  let (library, world) ← b.library.importModule name b.world
  return { b with library, world }

/-- Bind a slot to a function of the imported module and give it to a script. -/
def registerHook (b : Bridge σ) (vm : Handle) (slot : Nat) (name : String) :
    Except HookError (Bridge σ) :=
  match b.instance? vm with
  | none => .error (.unknownVm vm)
  | some i => do
    if b.hooks.capacity ≤ slot then throw (.slotOutOfRange slot b.hooks.capacity)
    let function ← b.library.resolve name
    let (hooks, world) ← b.hooks.bind slot ⟨name, function⟩ b.world
    let machine := i.machine.mapStore fun s => (s.define name (.hook slot vm)).1
    let text := s!"{vm.text}: hook '{name}' bound to slot {slot}"
    return { b.replace vm { i with machine } with hooks, world := world.report .debug text }

/-- Call the function that prepares the imported module. What it did to the world stays even
if it fails. -/
def registerInit (b : Bridge σ) : Except HookError Unit × Bridge σ :=
  match b.library.resolve initFunction with
  | .error error => (.error error, b)
  | .ok function =>
    match function ⟨none, []⟩ b.world with
    | (.error message, world) => (.error (.initFailed message), { b with world })
    | (.ok _, world) =>
      (.ok (), { b with world := world.report .debug s!"{initFunction} completed" })

end Bridge

end Swarm
