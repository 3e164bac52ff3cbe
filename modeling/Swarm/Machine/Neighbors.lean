import Swarm.Position

/-!
# Neighbors

The agents that an agent sees, in the order in which they were added. Adding an
agent that is already seen moves it and keeps its place in the order.
-/

namespace Swarm

/-- An agent that is seen. -/
structure Neighbor where
  /-- Its context id. -/
  id : UInt16
  /-- Where it is. -/
  position : Position

namespace Neighbor

/-- Add a neighbor to those already seen. -/
def insert (n : Neighbor) : List Neighbor → List Neighbor
  | [] => [n]
  | m :: ms => if m.id = n.id then n :: ms else m :: insert n ms

end Neighbor

end Swarm
