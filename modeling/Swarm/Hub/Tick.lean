import Swarm.Bridge.Step
import Swarm.Hub.Basic

/-!
# Ticks

In a tick every agent that has not stopped is shown the agents within reach, is
told where it is, gets the messages that were sent to it in the tick before, and
takes one step. What it has sent by then goes to all agents that it sees, in the
next tick. The messages for an agent that has stopped are discarded.
-/

namespace Swarm

/-- A tick in progress. -/
structure TickState (σ : Type) where
  bridge : Bridge σ
  /-- The messages of the tick before that are not delivered yet. -/
  inbox : Mail
  /-- The messages for the next tick. -/
  pending : Mail := {}
  report : TickReport := {}

/-- Work in a tick that ends at the first error and keeps what was done before it. -/
abbrev Ticking (σ : Type) := ExceptT BridgeError (StateT (TickState σ) Option)

namespace Ticking

variable {σ α : Type}

/-- Ask the bridge. -/
def ask (f : Bridge σ → Except BridgeError α) : Ticking σ α := fun s => some (f s.bridge, s)

/-- Change the bridge. -/
def change (f : Bridge σ → Except BridgeError (Bridge σ)) : Ticking σ Unit := fun s =>
  match f s.bridge with
  | .ok bridge => some (.ok (), { s with bridge })
  | .error error => some (.error error, s)

/-- Take something from the bridge. -/
def take (f : Bridge σ → Except BridgeError (α × Bridge σ)) : Ticking σ α := fun s =>
  match f s.bridge with
  | .ok (a, bridge) => some (.ok a, { s with bridge })
  | .error error => some (.error error, s)

/-- Let a machine take a step. -/
def step (fuel : Nat) (vm : Handle) : Ticking σ StepOutcome := fun s =>
  (s.bridge.step fuel vm).map fun
    | .ok (outcome, bridge) => (.ok outcome, { s with bridge })
    | .error error => (.error error, s)

/-- Count something. -/
def count (f : TickReport → TickReport) : Ticking σ Unit :=
  modify fun s => { s with report := f s.report }

/-- Take the messages for an agent. -/
def takeMail (contextId : UInt16) : Ticking σ (Option (List Message)) :=
  modifyGet fun s => (s.inbox[contextId]?, { s with inbox := s.inbox.erase contextId })

end Ticking

namespace Hub

variable {σ : Type}

/-- Discard the messages for an agent that has stopped. -/
def discardMail (agent : Agent) : Ticking σ Unit := do
  match ← Ticking.takeMail agent.contextId with
  | none => return
  | some messages =>
    let text := s!"{agent.vm.text}: discarding {messages.length} messages for a stopped agent"
    Ticking.change fun b => .ok (b.report .debug text)

/-- Show an agent the agents that it sees, tell it where it is, and deliver its messages. -/
def prepare (h : Hub) (agent : Agent) : Ticking σ Unit := do
  let own := h.position agent.contextId
  Ticking.change fun b => b.resetNeighbors agent.vm
  for other in h.neighborsOf agent do
    let relative := (h.position other.contextId).relativeTo own
    Ticking.change fun b => b.addNeighbor agent.vm other.contextId.toNat relative
  Ticking.change fun b => b.setAbsolutePosition agent.vm own
  for message in (← Ticking.takeMail agent.contextId).getD [] do
    Ticking.change fun b => b.feedMessage agent.vm message.sender.toNat message.payload

/-- Send what an agent has sent to the agents that it sees. -/
def route (h : Hub) (agent : Agent) : Ticking σ Unit := do
  for payload in ← Ticking.take fun b => b.drainOutbound agent.vm do
    for receiver in h.neighborsOf agent do
      modify fun s =>
        { s with pending := s.pending.add receiver.contextId ⟨agent.contextId, payload⟩ }
      Ticking.count fun r => { r with routed := r.routed + 1 }

/-- The part of an agent in a tick. -/
def visit (h : Hub) (fuel : Nat) (agent : Agent) : Ticking σ Unit := do
  if ← Ticking.ask fun b => b.done agent.vm then
    discardMail agent
    Ticking.count fun r => { r with faulted := r.faulted + 1 }
  else
    h.prepare agent
    match ← Ticking.step fuel agent.vm with
    | .ready =>
      Ticking.count fun r => { r with stepped := r.stepped + 1 }
      h.route agent
    | .faulted _ => Ticking.count fun r => { r with faulted := r.faulted + 1 }

/-- The messages that nobody took are dropped. -/
def dropMail : Ticking σ Unit := modify fun s =>
  let dropped := s.inbox.count
  let text := s!"dropped {dropped} messages addressed to unknown agents"
  if dropped = 0 then s else { s with bridge := s.bridge.report .warn text }

/-- The parts of all agents, in the order of the group. -/
def visitAll (h : Hub) (fuel : Nat) : Ticking σ Unit := do
  for agent in h.agents do h.visit fuel agent
  dropMail

end Hub

/-- How a tick ended. -/
structure TickEnding (σ : Type) where
  /-- What happened, or why the tick was broken off. -/
  result : Except BridgeError TickReport
  hub : Hub
  bridge : Bridge σ

namespace Hub

variable {σ : Type}

/-- One tick. -/
def tick (h : Hub) (fuel : Nat) (b : Bridge σ) : Option (TickEnding σ) :=
  (h.visitAll fuel { bridge := b, inbox := h.pending }).map fun (result, s) =>
    { result := result.map fun _ => s.report
      hub := { h with pending := s.pending }
      bridge := s.bridge }

end Hub

end Swarm
