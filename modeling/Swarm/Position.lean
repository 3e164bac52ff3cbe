/-!
# Positions in space

Coordinates are single-precision numbers; distances and differences are rounded
after every operation.
-/

namespace Swarm

/-- A point in space. -/
structure Position where
  x : Float32 := 0
  y : Float32 := 0
  z : Float32 := 0

namespace Position

/-- The distance between two points. -/
def distance (p q : Position) : Float32 :=
  let dx := p.x - q.x
  let dy := p.y - q.y
  let dz := p.z - q.z
  (dx * dx + dy * dy + dz * dz).sqrt

/-- A point as seen from an origin. -/
def relativeTo (p origin : Position) : Position := ⟨p.x - origin.x, p.y - origin.y, p.z - origin.z⟩

/-- Whether two points have equal coordinates; zeros of either sign are equal, and nothing
equals a coordinate that is not a number. -/
def same (p q : Position) : Bool := p.x == q.x && p.y == q.y && p.z == q.z

end Position

end Swarm
