import Swarm.Machine.Value

/-!
# Tables and the heap

A table holds values by key, in the order of the keys; storing the empty value
removes the key. Tables live in a heap and are shared by all values that hold
their id.
-/

namespace Swarm

/-- Values by key. -/
structure Table where
  rows : Std.TreeMap TableKey Value := {}

namespace Table

/-- The value of a key; the empty one where there is none. -/
def get (t : Table) (key : TableKey) : Value := t.rows[key]?.getD .nil

/-- Store a value under a key. -/
def put (t : Table) (key : TableKey) (value : Value) : Table :=
  if value.isNil then ⟨t.rows.erase key⟩ else ⟨t.rows.insert key value⟩

/-- The number of keys. -/
def size (t : Table) : Nat := t.rows.size

/-- The keys with their values, in order. -/
def toList (t : Table) : List (TableKey × Value) := t.rows.toList

end Table

/-- All tables of a machine. -/
structure Heap where
  tables : Array Table := #[]

namespace Heap

/-- Add an empty table. -/
def alloc (h : Heap) : Heap × TableId := (⟨h.tables.push {}⟩, ⟨h.tables.size⟩)

/-- The table with an id. -/
def table (h : Heap) (id : TableId) : Table := h.tables[id.index]?.getD {}

/-- Store a value in a table. -/
def put (h : Heap) (id : TableId) (key : TableKey) (value : Value) : Heap :=
  ⟨h.tables.modify id.index fun t => t.put key value⟩

/-- The ids of all tables. -/
def ids (h : Heap) : List TableId := (List.range h.tables.size).map TableId.mk

end Heap

end Swarm
