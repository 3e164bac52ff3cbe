import Swarm.Bridge.Basic

/-!
# What a script finds around it

Before a turn the host tells a machine which agents it sees, where it is and
which messages have come for it; after the turn it takes what the script has
sent. Ids given by the host are kept to 16 bits.
-/

namespace Swarm

/-- The global variable that holds the position of the agent. -/
def positionGlobal : String := "absolute_position"

/-- The lowest 16 bits of a whole number. -/
def contextIdOf (id : Int) : UInt16 := UInt16.ofNat (id % 65536).toNat

namespace Bridge

variable {σ : Type}

/-- Forget the neighbors of a machine. -/
def resetNeighbors (b : Bridge σ) (vm : Handle) : Except BridgeError (Bridge σ) :=
  b.updateStore vm Store.resetNeighbors

/-- Show an agent to a machine. -/
def addNeighbor (b : Bridge σ) (vm : Handle) (id : Int) (position : Position) :
    Except BridgeError (Bridge σ) :=
  b.updateStore vm fun s => s.addNeighbor ⟨contextIdOf id, position⟩

/-- The agents that a machine sees. -/
def neighbors (b : Bridge σ) (vm : Handle) : Except BridgeError (List Neighbor) :=
  return (← b.find vm).machine.store.neighbors

/-- Queue a message to the script of a machine. -/
def feedMessage (b : Bridge σ) (vm : Handle) (sender : Int) (payload : Bytes) :
    Except BridgeError (Bridge σ) :=
  b.updateStore vm fun s => s.receive ⟨contextIdOf sender, payload⟩

/-- Tell a script where its agent is. -/
def setAbsolutePosition (b : Bridge σ) (vm : Handle) (position : Position) :
    Except BridgeError (Bridge σ) :=
  b.updateStore vm fun s =>
    let (s, point) := s.newPoint position
    s.setGlobal (Utf8.encode positionGlobal) point

/-- Whether there are payloads that a script has sent. -/
def hasMoreOutbound (b : Bridge σ) (vm : Handle) : Except BridgeError Bool :=
  return !(← b.find vm).machine.store.mailbox.outbound.isEmpty

/-- Take the oldest payload that a script has sent. -/
def nextOutbound (b : Bridge σ) (vm : Handle) : Except BridgeError (Option Bytes × Bridge σ) := do
  let i ← b.find vm
  let (payload, store) := i.machine.store.takeOutbound
  return (payload, b.replace vm { i with machine := { i.machine with store } })

/-- Take payloads that a script has sent, at most as many as the count says. -/
def takeOutbound (b : Bridge σ) (vm : Handle) : Nat → Except BridgeError (List Bytes × Bridge σ)
  | 0 => .ok ([], b)
  | count + 1 => do
    match ← b.nextOutbound vm with
    | (none, b) => return ([], b)
    | (some payload, b) =>
      let (payloads, b) ← b.takeOutbound vm count
      return (payload :: payloads, b)

/-- Take all payloads that a script has sent, the oldest first. -/
def drainOutbound (b : Bridge σ) (vm : Handle) : Except BridgeError (List Bytes × Bridge σ) := do
  b.takeOutbound vm ((← b.find vm).machine.store.mailbox.outbound.length + 1)

/-- The value of a global variable of a script. -/
def global (b : Bridge σ) (vm : Handle) (name : String) : Except BridgeError HostValue := do
  let store := (← b.find vm).machine.store
  return store.toHost (store.global (Utf8.encode name))

end Bridge

end Swarm
