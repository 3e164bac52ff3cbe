import Swarm.Machine.Execution

/-!
# Entering a machine

The host enters a machine to run the body of its script, to call one of its
functions, or to let it hear the messages that wait for it. Every entry is
refused by a machine that has faulted. An entry that takes more steps than the
fuel has no answer.
-/

namespace Swarm

namespace Ending

variable {ν σ α β : Type}

/-- Change the value that an entry ended with. -/
def map (f : α → β) (e : Ending ν σ α) : Ending ν σ β :=
  ⟨e.result.map f, e.machine, e.world⟩

end Ending

/-- What is reported of a message that nobody hears. -/
def Message.unheard (message : Message) (contextId : UInt16) : String :=
  s!"vm {contextId.toNat}: dropping message from {message.sender.toNat} without a listener"

namespace Store

variable {ν σ : Type}

/-- Take messages until one can be heard. It comes as the function that hears it and the
arguments for it; messages that nobody hears are dropped. -/
def nextDelivery (contextId : UInt16) (s : Store ν) (w : World σ) :
    Option (Value × List Value) × Store ν × World σ :=
  match _h : s.mailbox.takeInbound with
  | (none, _) => (none, s, w)
  | (some message, mailbox) =>
    let s := { s with mailbox }
    match s.listener with
    | none => nextDelivery contextId s (w.report .debug (message.unheard contextId))
    | some listener =>
      let (s, payload) := s.intern message.payload
      (some (listener, [.int (Int64.ofNat message.sender.toNat), payload]), s, w)
  termination_by s.mailbox.inbound.length
  decreasing_by exact Mailbox.length_inbound_lt _h

section Delivery

variable {contextId : UInt16} {s : Store ν} {message : Message} {mailbox : Mailbox}

/-- Without a message nothing is delivered. -/
theorem nextDelivery_of_none (h : s.mailbox.takeInbound = (none, mailbox)) (w : World σ) :
    s.nextDelivery contextId w = (none, s, w) := by
  rw [nextDelivery]
  split <;> cases h.symm.trans (by assumption)
  rfl

/-- A message that nobody hears is passed over. -/
theorem nextDelivery_of_unheard (h : s.mailbox.takeInbound = (some message, mailbox))
    (hlistener : s.listener = none) (w : World σ) :
    s.nextDelivery contextId w =
      Store.nextDelivery contextId { s with mailbox }
        (w.report .debug (message.unheard contextId)) := by
  rw [nextDelivery]
  split <;> cases h.symm.trans (by assumption)
  dsimp only
  split <;> cases hlistener.symm.trans (by assumption)
  rfl

/-- A message that is heard is delivered to the listener. -/
theorem nextDelivery_of_heard {listener : Value}
    (h : s.mailbox.takeInbound = (some message, mailbox)) (hlistener : s.listener = some listener)
    (w : World σ) :
    s.nextDelivery contextId w =
      let (s, payload) := Store.intern { s with mailbox } message.payload
      (some (listener, [.int (Int64.ofNat message.sender.toNat), payload]), s, w) := by
  rw [nextDelivery]
  split <;> cases h.symm.trans (by assumption)
  dsimp only
  split <;> cases hlistener.symm.trans (by assumption)
  rfl

end Delivery

end Store

namespace Machine

variable {ν κ σ : Type}

/-- Call a value with arguments. -/
def callValue (sys : NativeSystem ν κ σ) (fuel : Nat) (callee : Value) (arguments : List Value)
    (m : Machine ν) (w : World σ) : Option (Ending ν σ Value) :=
  (Execution.startCall m w [] callee arguments).run sys fuel

/-- Run the body of the script. -/
def executeScript (sys : NativeSystem ν κ σ) (fuel : Nat) (m : Machine ν) (w : World σ) :
    Option (Ending ν σ Unit) :=
  ((Execution.startScript m w []).run sys fuel).map fun e => e.map fun _ => ()

/-- Call the function in a global variable; a variable without a value is skipped. -/
def callGlobal (sys : NativeSystem ν κ σ) (fuel : Nat) (name : String) (arguments : List Value)
    (m : Machine ν) (w : World σ) : Option (Ending ν σ Value) :=
  if m.isReady then
    let callee := m.store.global (Utf8.encode name)
    if callee.isNil then
      let text := s!"function '{name}' is not defined, skipping"
      some ⟨.ok .nil, m, w.report .debug text⟩
    else callValue sys fuel callee arguments m w
  else some ⟨.error .halted, m, w⟩

/-- Take the next message that can be heard. -/
def nextDelivery (m : Machine ν) (w : World σ) :
    Option (Value × List Value) × Machine ν × World σ :=
  let (delivery, store, w) := m.store.nextDelivery m.contextId w
  (delivery, { m with store }, w)

/-- Let the script hear the messages that wait, in at most `rounds` rounds; the count goes on
from those heard before. -/
def hearMessages (sys : NativeSystem ν κ σ) (fuel : Nat) (m : Machine ν) (w : World σ)
    (heard : Nat) : Nat → Option (Ending ν σ Nat)
  | 0 => none
  | rounds + 1 =>
    match m.nextDelivery w with
    | (none, m, w) => some ⟨.ok heard, m, w⟩
    | (some (listener, arguments), m, w) =>
      match callValue sys fuel listener arguments m w with
      | none => none
      | some ⟨.error error, m, w⟩ => some ⟨.error error, m, w⟩
      | some ⟨.ok _, m, w⟩ => hearMessages sys fuel m w (heard + 1) rounds

/-- Let the script hear the messages that wait, the oldest first; the result is the number of
messages that were heard. -/
def processInbound (sys : NativeSystem ν κ σ) (fuel : Nat) (m : Machine ν) (w : World σ) :
    Option (Ending ν σ Nat) :=
  if m.isReady then hearMessages sys fuel m w 0 fuel
  else some ⟨.error .halted, m, w⟩

end Machine

end Swarm
