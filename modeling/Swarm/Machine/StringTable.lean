import Std.Data.TreeMap
import Swarm.Bytes

/-!
# String tables

A string table gives every byte string an id, and equal strings the same one.
Strings that are no longer needed are released; the slot of a released string is
given to a new string later, the slot released last first.
-/

namespace Swarm

/-- The place of a string in a string table. -/
structure StringId where
  index : Nat
  deriving DecidableEq, Repr

instance : Ord StringId := ⟨compareOn StringId.index⟩

instance : Std.TransOrd StringId := inferInstanceAs (Std.TransCmp (compareOn StringId.index))

instance : Std.LawfulEqOrd StringId where
  eq_of_compare {a b} h := by
    have hindex : compare a.index b.index = .eq := h
    cases a
    cases b
    simpa using hindex

/-- Byte strings by id. -/
structure StringTable where
  /-- The string in every slot; a released slot is empty. -/
  slots : Array (Option Bytes) := #[]
  /-- The id of every string. -/
  ids : Std.TreeMap Bytes StringId := {}
  /-- The released slots, the last released one first. -/
  free : List StringId := []

namespace StringTable

/-- The number of strings. -/
def size (t : StringTable) : Nat := t.ids.size

/-- The id of a string that is in the table. -/
def lookup (t : StringTable) (value : Bytes) : Option StringId := t.ids[value]?

/-- The string of an id; a released id has the empty string. -/
def get (t : StringTable) (id : StringId) : Bytes := (t.slots[id.index]?.getD none).getD []

/-- Add a string that is not in the table. -/
def add (t : StringTable) (value : Bytes) : StringTable × StringId :=
  match t.free with
  | id :: free =>
    ({ slots := t.slots.setIfInBounds id.index (some value)
       ids := t.ids.insert value id
       free }, id)
  | [] =>
    let id : StringId := ⟨t.slots.size⟩
    ({ t with slots := t.slots.push (some value), ids := t.ids.insert value id }, id)

/-- The id of a string, which is added if it is missing. -/
def intern (t : StringTable) (value : Bytes) : StringTable × StringId :=
  match t.lookup value with
  | some id => (t, id)
  | none => t.add value

/-- Empty a slot. -/
def release (t : StringTable) (id : StringId) (value : Bytes) : StringTable :=
  { slots := t.slots.setIfInBounds id.index none
    ids := t.ids.erase value
    free := id :: t.free }

/-- Release the string in a slot unless it is live; the number counts what was released. -/
def sweep (live : StringId → Bool) (t : StringTable × Nat) (id : StringId) : StringTable × Nat :=
  if live id then t
  else match t.1.slots[id.index]?.getD none with
    | none => t
    | some value => (t.1.release id value, t.2 + 1)

/-- Release every string that is not live and tell how many there were. -/
def retain (t : StringTable) (live : StringId → Bool) : StringTable × Nat :=
  ((List.range t.slots.size).map StringId.mk).foldl (sweep live) (t, 0)

end StringTable

end Swarm
