import Swarm.Host.Module

/-!
# Hooks

Scripts call functions of the host through numbered slots that all machines
share: whichever script calls a slot reaches the function that is bound to it at
that moment. Binding a slot again replaces the function for all of them.
-/

namespace Swarm

/-- A function of the host that is bound to a slot, with the name it was bound under. -/
structure Hook (σ : Type) where
  name : String
  function : HostFunction σ

/-- The slots. -/
structure HookTable (σ : Type) where
  slots : Array (Option (Hook σ))

namespace HookTable

variable {ν σ : Type}

/-- A number of empty slots. -/
def empty (capacity : Nat) : HookTable σ := ⟨Array.replicate capacity none⟩

/-- The number of slots. -/
def capacity (t : HookTable σ) : Nat := t.slots.size

/-- What is bound to a slot. -/
def slot? (t : HookTable σ) (slot : Nat) : Option (Hook σ) := t.slots[slot]?.getD none

/-- Bind a function to a slot. -/
def bind (t : HookTable σ) (slot : Nat) (hook : Hook σ) (w : World σ) :
    Except HookError (HookTable σ × World σ) :=
  match t.slots[slot]? with
  | none => .error (.slotOutOfRange slot t.capacity)
  | some previous =>
    let w := match previous with
      | some previous =>
        w.report .debug s!"hook slot {slot}: rebinding '{previous.name}' to '{hook.name}'"
      | none => w
    .ok (⟨t.slots.setIfInBounds slot (some hook)⟩, w)

/-- Call what is bound to a slot on behalf of a machine, with the arguments of its innermost
call. -/
def dispatch (t : HookTable σ) (slot : Nat) (owner : Handle) (m : Machine ν) (w : World σ) :
    Except RuntimeError Value × Store ν × World σ :=
  match t.slot? slot with
  | none => (.error (.raised s!"hook slot {slot} is not bound"), m.store, w)
  | some hook =>
    match hook.function ⟨some owner, m.arguments.map m.store.toHost⟩ w with
    | (.error message, w) => (.error (.raised s!"hook '{hook.name}': {message}"), m.store, w)
    | (.ok result, w) =>
      let text := s!"hook '{hook.name}': {result.typeName} result reaches the script as nil"
      let w := if result.isForeign then w.report .debug text else w
      let (store, value) := m.store.ofHost result
      (.ok value, store, w)

end HookTable

end Swarm
