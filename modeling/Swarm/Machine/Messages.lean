import Swarm.Bytes

/-!
# Messages

A machine has two queues: messages that wait to be heard by its script, and
payloads that its script has sent. Both hand out the oldest first.
-/

namespace Swarm

/-- A message on its way to a script. -/
structure Message where
  /-- Who sent it. -/
  sender : UInt16
  /-- What it says. -/
  payload : Bytes
  deriving DecidableEq, Repr

/-- The queues of a machine. -/
structure Mailbox where
  /-- Messages to the script, the oldest first. -/
  inbound : List Message := []
  /-- Payloads sent by the script, the oldest first. -/
  outbound : List Bytes := []
  deriving DecidableEq, Repr

namespace Mailbox

/-- Queue a message to the script. -/
def receive (b : Mailbox) (message : Message) : Mailbox :=
  { b with inbound := b.inbound ++ [message] }

/-- Take the oldest message to the script. -/
def takeInbound (b : Mailbox) : Option Message × Mailbox :=
  (b.inbound.head?, { b with inbound := b.inbound.tail })

/-- An empty queue has no oldest message. -/
theorem takeInbound_of_nil {b : Mailbox} (h : b.inbound = []) : b.takeInbound = (none, b) := by
  unfold takeInbound
  rw [h, List.head?_nil, List.tail_nil, ← h]

/-- The first message of the queue is the oldest one. -/
theorem takeInbound_of_cons {b : Mailbox} {message : Message} {rest : List Message}
    (h : b.inbound = message :: rest) :
    b.takeInbound = (some message, { b with inbound := rest }) := by
  unfold takeInbound
  rw [h, List.head?_cons, List.tail_cons]

/-- A queue whose oldest message has been taken is shorter. -/
theorem length_inbound_lt {b b' : Mailbox} {message : Message}
    (h : b.takeInbound = (some message, b')) : b'.inbound.length < b.inbound.length := by
  cases hinbound : b.inbound with
  | nil => cases (takeInbound_of_nil hinbound).symm.trans h
  | cons first rest =>
    cases (takeInbound_of_cons hinbound).symm.trans h
    exact Nat.lt_succ_self _

/-- Queue a payload sent by the script. -/
def send (b : Mailbox) (payload : Bytes) : Mailbox :=
  { b with outbound := b.outbound ++ [payload] }

/-- Take the oldest payload sent by the script. -/
def takeOutbound (b : Mailbox) : Option Bytes × Mailbox :=
  (b.outbound.head?, { b with outbound := b.outbound.tail })

end Mailbox

end Swarm
