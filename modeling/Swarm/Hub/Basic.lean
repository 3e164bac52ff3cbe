import Swarm.Bridge.Environment

/-!
# The hub

The hub knows a group of agents, each with a loaded machine and a context id,
and where every agent is. Messages wait in the hub from the tick in which they
were sent to the next one.
-/

namespace Swarm

/-- An agent of the group. -/
structure Agent where
  /-- The machine that the agent runs. -/
  vm : Handle
  /-- The id that other agents know it by. -/
  contextId : UInt16
  deriving DecidableEq, Repr

/-- Messages by the context id of their receiver, in the order of their delivery. -/
abbrev Mail := Std.TreeMap UInt16 (List Message)

namespace Mail

/-- Add a message for a receiver. -/
def add (mail : Mail) (receiver : UInt16) (message : Message) : Mail :=
  mail.insert receiver (mail.getD receiver [] ++ [message])

/-- The number of messages. -/
def count (mail : Mail) : Nat := mail.values.flatten.length

end Mail

/-- What happened in a tick. -/
structure TickReport where
  /-- The number of agents that were stepped and can go on. -/
  stepped : Nat := 0
  /-- The number of agents that have stopped for good. -/
  faulted : Nat := 0
  /-- The number of messages that wait for the next tick. -/
  routed : Nat := 0
  deriving DecidableEq, Repr

/-- A group of agents. -/
structure Hub where
  /-- Agents farther apart than this do not see each other. -/
  neighborDistance : Float32
  agents : List Agent := []
  /-- Where agents are, by their context id. -/
  board : Std.TreeMap UInt16 Position := {}
  /-- The messages that wait for the next tick. -/
  pending : Mail := {}

namespace Hub

/-- Move an agent. -/
def place (h : Hub) (contextId : UInt16) (position : Position) : Hub :=
  { h with board := h.board.insert contextId position }

/-- Where an agent is; one that was never placed is at the origin. -/
def position (h : Hub) (contextId : UInt16) : Position := h.board.getD contextId {}

/-- Add an agent. -/
def addAgent (h : Hub) (agent : Agent) (position : Position) : Hub :=
  { h.place agent.contextId position with agents := h.agents ++ [agent] }

/-- Whether an agent sees another one. -/
def sees (h : Hub) (agent other : Agent) : Bool :=
  other.contextId != agent.contextId &&
    !decide (h.neighborDistance <
      (h.position agent.contextId).distance (h.position other.contextId))

/-- The agents that an agent sees, in the order of the group. -/
def neighborsOf (h : Hub) (agent : Agent) : List Agent := h.agents.filter (h.sees agent)

end Hub

end Swarm
