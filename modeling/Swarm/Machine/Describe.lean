import Swarm.Decimal.Fixed
import Swarm.Machine.State

/-!
# Showing values and machines

Values are shown as scripts print them: floating-point numbers with six places,
strings as text, tables by their size and closures by their address or number.
The dump of a machine lists its stack from the top.
-/

namespace Swarm

namespace Machine

variable {ν : Type}

/-- A value as scripts print it. -/
def describe (m : Machine ν) : Value → String
  | .nil => "[nil]"
  | .int n => toString n.toInt
  | .float x => (Decimal.Format.double.unpack x.toBits.toNat).fixed 6
  | .str id => Utf8.lossy (m.store.strings.get id)
  | .table id => s!"[table with {(m.store.heap.table id).size} elems]"
  | .closure (.script address) => s!"[c-closure @{address.toNat}]"
  | .closure (.native id) => s!"[n-closure @{id}]"

/-- A line of the dump for a value on the stack; native functions are shown with the name
they were registered with. -/
def dumpLine (m : Machine ν) (index : Nat) (value : Value) : String :=
  match value with
  | .closure (.native id) =>
    let name := match m.store.natives[id]? with
      | some entry => entry.name
      | none => "?"
    s!"  [{index}] {m.describe value} {name}\n"
  | _ => s!"  [{index}] {m.describe value}\n"

/-- The word for the state of a machine. -/
def stateName (m : Machine ν) : String := if m.isReady then "Ready" else "Error"

/-- A snapshot of a machine in several lines. -/
def dump (m : Machine ν) : String :=
  let head := s!"vm {m.contextId.toNat} state: {m.stateName}, pc: {m.pc}\n"
  let fault := match m.fault with
    | some fault => s!"fault at offset {fault.pc}: {fault.error.message}\n"
    | none => ""
  let rows := m.stack.toList.mapIdx m.dumpLine
  head ++ fault ++ s!"stack ({m.stack.size} entries):\n" ++ String.join rows.reverse ++
    s!"frames: {m.frames.size}\n"

end Machine

end Swarm
