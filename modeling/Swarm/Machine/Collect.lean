import Std.Data.TreeSet
import Swarm.Journal
import Swarm.Machine.State

/-!
# Releasing strings

A string is kept as long as it belongs to the program, names a global variable
or can be reached: from a global variable, the stack, a local symbol, the
listener or the table of neighbors, through any number of tables. All other
strings are released.
-/

namespace Swarm

namespace Table

/-- The strings that are keys of a table, added to those known before. -/
def keyStrings (t : Table) (live : Std.TreeSet StringId) : Std.TreeSet StringId :=
  t.toList.foldl (fun live row => match row.1 with
    | .str id => live.insert id
    | .int _ => live) live

/-- The values in a table. -/
def values (t : Table) : List Value := t.toList.map Prod.snd

end Table

namespace Heap

/-- The number of rows of all tables. -/
def rowCount (h : Heap) : Nat := (h.tables.toList.flatMap Table.values).length

/-- A table of the list has no more rows than all of them together. -/
theorem length_values_le {tables : List Table} {t : Table} (ht : t ∈ tables) :
    t.values.length ≤ (tables.flatMap Table.values).length := by
  induction tables with
  | nil => nomatch ht
  | cons first rest ih =>
    rw [List.flatMap_cons, List.length_append]
    rcases List.mem_cons.mp ht with rfl | ht
    · exact Nat.le_add_right _ _
    · exact Nat.le_trans (ih ht) (Nat.le_add_left _ _)

/-- No table has more rows than all together. -/
theorem length_values_le_rowCount (h : Heap) (id : TableId) :
    (h.table id).values.length ≤ h.rowCount := by
  unfold table
  cases hid : h.tables[id.index]? with
  | none => exact Nat.zero_le _
  | some t => exact length_values_le (Array.mem_toList_iff.mpr (Array.mem_of_getElem? hid))

/-- Visiting a table leaves fewer tables to visit. -/
theorem size_erase_lt {unseen : Std.TreeSet TableId} {id : TableId} (h : id ∈ unseen) :
    (unseen.erase id).size < unseen.size := by
  have hsize : unseen.size ≠ 0 := by
    intro hzero
    have hempty : unseen.isEmpty = true := by simp [Std.TreeSet.isEmpty_eq_size_eq_zero, hzero]
    exact Std.TreeSet.not_mem_of_isEmpty hempty h
  rw [Std.TreeSet.size_erase, if_pos (Std.TreeSet.contains_iff_mem.2 h)]
  omega

/-- A bound on the number of values that are looked at. -/
def labor (h : Heap) (unseen : Std.TreeSet TableId) (pending : List Value) : Nat :=
  unseen.size * (h.rowCount + 1) + pending.length

/-- Visiting a table takes the place of as many values as all tables have rows. -/
theorem labor_visit_lt (h : Heap) {unseen : Std.TreeSet TableId} {id : TableId} (hid : id ∈ unseen)
    (pending : List Value) : h.labor (unseen.erase id) ((h.table id).values ++ pending) <
      h.labor unseen (.table id :: pending) := by
  have hfewer := Nat.mul_le_mul_right (h.rowCount + 1) (size_erase_lt hid)
  have hrows := h.length_values_le_rowCount id
  rw [Nat.succ_mul] at hfewer
  simp only [labor, List.length_append, List.length_cons]
  omega

/-- The strings that can be reached from the pending values, added to those known before.
Tables that have been visited are no longer among the unseen ones. -/
def reach (h : Heap) (unseen : Std.TreeSet TableId) (live : Std.TreeSet StringId) :
    List Value → Std.TreeSet StringId
  | [] => live
  | .str id :: pending => h.reach unseen (live.insert id) pending
  | .table id :: pending =>
    if hunseen : id ∈ unseen then
      have := h.labor_visit_lt hunseen pending
      h.reach (unseen.erase id) ((h.table id).keyStrings live) ((h.table id).values ++ pending)
    else h.reach unseen live pending
  | .nil :: pending | .int _ :: pending | .float _ :: pending | .closure _ :: pending =>
    h.reach unseen live pending
  termination_by pending => h.labor unseen pending
  decreasing_by all_goals first | exact this | exact Nat.lt_add_one _

end Heap

namespace Machine

variable {ν : Type}

/-- The values from which strings can be reached. -/
def roots (m : Machine ν) : List Value :=
  m.store.globals.values ++ m.stack.toList ++
    m.frames.toList.flatMap (fun frame => frame.locals.toList) ++ m.store.listener.toList ++
    [.table m.store.neighborsTable]

/-- The strings that are not to be released. -/
def liveStrings (m : Machine ν) : Std.TreeSet StringId :=
  let named := Std.TreeSet.ofList (m.programStrings.toList ++ m.store.globals.keys)
  m.store.heap.reach (.ofList m.store.heap.ids) named m.roots

/-- The string table without the strings that are not live, and how many those were. -/
def collectStrings (m : Machine ν) : StringTable × Nat :=
  let live := m.liveStrings
  m.store.strings.retain fun id => live.contains id

/-- Release the strings that are not live and report how many those were. -/
def releaseStrings {σ : Type} (m : Machine ν) (w : World σ) : Nat × Store ν × World σ :=
  let (strings, released) := m.collectStrings
  let text := s!"vm {m.contextId.toNat}: released {released} strings, {strings.size} left"
  (released, { m.store with strings }, if released = 0 then w else w.report .debug text)

end Machine

end Swarm
