import Swarm.Machine.Collect

/-!
# What can be reached from a value

A value reaches itself and, through tables, their keys and values. The marking
phase of string collection finds exactly the strings that can be reached, whatever
the shape of the tables: a visited table is never visited again, and everything it
holds is settled or still pending.
-/

namespace Swarm

/-- The values of a map are those of its rows. -/
theorem values_eq_map_snd {α β : Type} {cmp : α → α → Ordering} (t : Std.TreeMap α β cmp) :
    t.values = t.toList.map Prod.snd := by
  change t.inner.inner.values = (Std.DTreeMap.Internal.Impl.Const.toList t.inner.inner).map _
  rw [Std.DTreeMap.Internal.Impl.values_eq_map_snd,
    Std.DTreeMap.Internal.Impl.Const.toList_eq_toListModel_map]
  simp

namespace Table

/-- The rows of a table are its keys with their values. -/
theorem mem_toList_iff {t : Table} {key : TableKey} {value : Value} :
    (key, value) ∈ t.toList ↔ t.rows[key]? = some value :=
  Std.TreeMap.mem_toList_iff_getElem?_eq_some

/-- A row of a table that was written to is an old row or the one that was written. -/
theorem mem_toList_of_put {t : Table} {key : TableKey} {value : Value} {row : TableKey × Value}
    (h : row ∈ (t.put key value).toList) : row ∈ t.toList ∨ row = (key, value) := by
  obtain ⟨key', value'⟩ := row
  rw [mem_toList_iff] at h ⊢
  unfold put at h
  split at h
  · rw [Std.TreeMap.getElem?_erase] at h
    split at h
    · cases h
    · exact .inl h
  · rw [Std.TreeMap.getElem?_insert] at h
    split at h
    · rename_i heq
      rw [Std.compare_eq_iff_eq.mp heq, Option.some.inj h]
      exact .inr rfl
    · exact .inl h

/-- The strings that are keys of a table are added to those known before. -/
theorem mem_keyStrings_iff {t : Table} {live : Std.TreeSet StringId} {id : StringId} :
    id ∈ t.keyStrings live ↔ id ∈ live ∨ ∃ value, (.str id, value) ∈ t.toList := by
  unfold keyStrings
  induction t.toList generalizing live with
  | nil => simp
  | cons row rows ih =>
    obtain ⟨key, value⟩ := row
    rw [List.foldl_cons, ih]
    cases key with
    | int n => simp
    | str other =>
      by_cases hother : other = id
      · simp [Std.TreeSet.mem_insert, hother]
      · simp [Std.TreeSet.mem_insert, hother, Ne.symm hother]

end Table

namespace Heap

/-- A new table changes no table: before, its id was read as an empty table. -/
@[simp] theorem table_alloc (h : Heap) (id : TableId) : h.alloc.1.table id = h.table id := by
  unfold alloc table
  rw [Array.getElem?_push]
  split
  · rename_i heq
    rw [heq]
    simp
  · rfl

/-- A new table is empty. -/
@[simp] theorem toList_table_new (h : Heap) : (h.table h.alloc.2).toList = [] := by
  have hnew : h.table h.alloc.2 = {} := by simp [table, alloc]
  rw [hnew]
  rfl

/-- Writing to a table changes that table alone. -/
theorem table_put (h : Heap) (id other : TableId) (key : TableKey) (value : Value) :
    (h.put id key value).table other = h.table other ∨
      (h.put id key value).table other = (h.table other).put key value := by
  unfold put table
  rw [Array.getElem?_modify]
  split
  · cases h.tables[other.index]? with
    | none => exact .inl rfl
    | some t => exact .inr rfl
  · exact .inl rfl

/-- What can be reached from a value: itself, and the keys and values of all tables that can be
reached. -/
inductive Reaches (h : Heap) (v : Value) : Value → Prop where
  | refl : Reaches h v v
  | key {id : TableId} {row : TableKey × Value} (hid : Reaches h v (.table id))
      (hrow : row ∈ (h.table id).toList) : Reaches h v row.1.toValue
  | value {id : TableId} {row : TableKey × Value} (hid : Reaches h v (.table id))
      (hrow : row ∈ (h.table id).toList) : Reaches h v row.2

/-- What is reached from what is reached is reached. -/
theorem Reaches.trans {h : Heap} {u v w : Value} (huv : h.Reaches u v) (hvw : h.Reaches v w) :
    h.Reaches u w := by
  induction hvw with
  | refl => exact huv
  | key _ hrow ih => exact .key ih hrow
  | value _ hrow ih => exact .value ih hrow

/-- From a value that is not a table nothing else can be reached. -/
theorem Reaches.eq_of_not_table {h : Heap} {v w : Value} (hreach : h.Reaches v w)
    (hv : ∀ id, v ≠ .table id) : w = v := by
  induction hreach with
  | refl => rfl
  | key _ _ ih => exact absurd ih.symm (hv _)
  | value _ _ ih => exact absurd ih.symm (hv _)

/-- Only values with the property can be reached. -/
def Confines (h : Heap) (P : Value → Prop) (v : Value) : Prop := ∀ w, h.Reaches v w → P w

section Confines

variable {h : Heap} {P Q : Value → Prop} {v : Value}

/-- A value reaches itself. -/
theorem Confines.self (hv : h.Confines P v) : P v := hv v .refl

/-- Values may be confined to more. -/
theorem Confines.mono (hPQ : ∀ w, P w → Q w) (hv : h.Confines P v) : h.Confines Q v :=
  fun w hw => hPQ w (hv w hw)

/-- What is reached is confined as well. -/
theorem Confines.of_reaches {w : Value} (hv : h.Confines P v) (hw : h.Reaches v w) :
    h.Confines P w :=
  fun u hu => hv u (hw.trans hu)

/-- The keys of a confined table are confined. -/
theorem Confines.key {id : TableId} {row : TableKey × Value} (hv : h.Confines P (.table id))
    (hrow : row ∈ (h.table id).toList) : h.Confines P row.1.toValue :=
  hv.of_reaches (.key .refl hrow)

/-- The values in a confined table are confined. -/
theorem Confines.value {id : TableId} {row : TableKey × Value} (hv : h.Confines P (.table id))
    (hrow : row ∈ (h.table id).toList) : h.Confines P row.2 :=
  hv.of_reaches (.value .refl hrow)

/-- For a value that is not a table only its own property counts. -/
theorem confines_of_not_table (hv : ∀ id, v ≠ .table id) (hP : P v) : h.Confines P v :=
  fun w hw => by rwa [hw.eq_of_not_table hv]

/-- For an empty table only its own property counts. -/
theorem confines_of_empty {id : TableId} (hid : (h.table id).toList = []) (hP : P (.table id)) :
    h.Confines P (.table id) := by
  intro w hw
  have heq : w = .table id := by
    induction hw with
    | refl => rfl
    | key _ hrow ih =>
      cases ih
      simp [hid] at hrow
    | value _ hrow ih =>
      cases ih
      simp [hid] at hrow
  rwa [heq]

/-- Two heaps with the same tables have the same values in reach. -/
theorem Confines.of_table_eq {h' : Heap} (heq : ∀ id, h'.table id = h.table id)
    (hv : h.Confines P v) : h'.Confines P v := by
  intro w hw
  have hold : h.Reaches v w := by
    induction hw with
    | refl => exact .refl
    | key _ hrow ih => exact .key ih (heq _ ▸ hrow)
    | value _ hrow ih => exact .value ih (heq _ ▸ hrow)
  exact hv w hold

/-- Writing a key and a value that reach only values with the property brings nothing else into
reach. -/
theorem Confines.put {id : TableId} {key : TableKey} {value : Value}
    (hkey : h.Confines P key.toValue) (hvalue : h.Confines P value) (hv : h.Confines P v) :
    (h.put id key value).Confines P v := by
  -- What is reached in the new heap confines in the old one: the new row is the only difference.
  have hrow {other : TableId} {row : TableKey × Value} (hother : h.Confines P (.table other))
      (hrow : row ∈ ((h.put id key value).table other).toList) :
      h.Confines P row.1.toValue ∧ h.Confines P row.2 := by
    rcases h.table_put id other key value with heq | heq
    · rw [heq] at hrow
      exact ⟨hother.key hrow, hother.value hrow⟩
    · rw [heq] at hrow
      rcases Table.mem_toList_of_put hrow with hrow | rfl
      · exact ⟨hother.key hrow, hother.value hrow⟩
      · exact ⟨hkey, hvalue⟩
  intro w hw
  suffices hconfines : h.Confines P w from hconfines.self
  induction hw with
  | refl => exact hv
  | key _ hmem ih => exact (hrow ih hmem).1
  | value _ hmem ih => exact (hrow ih hmem).2

end Confines

section Marking

variable {h : Heap} {unseen : Std.TreeSet TableId} {live : Std.TreeSet StringId}
  {pending : List Value}

/-- A value that marking has dealt with or will deal with: it is pending, or it is a string that
is live, or a table that has been visited, or nothing can be reached from it. -/
def Settled (unseen : Std.TreeSet TableId) (live : Std.TreeSet StringId) (pending : List Value)
    (v : Value) : Prop :=
  v ∈ pending ∨ match v with
    | .str id => id ∈ live
    | .table id => id ∉ unseen
    | _ => True

/-- A pending value that is settled without being pending can be taken off. -/
theorem Settled.of_cons {u v : Value} (hv : Settled unseen live (u :: pending) v)
    (hu : Settled unseen live pending u) : Settled unseen live pending v := by
  rcases hv with hv | hv
  · rcases List.mem_cons.mp hv with rfl | hv
    · exact hu
    · exact .inl hv
  · exact .inr hv

/-- All keys and values of the visited tables are settled. -/
def Marked (h : Heap) (unseen : Std.TreeSet TableId) (live : Std.TreeSet StringId)
    (pending : List Value) : Prop :=
  ∀ id, id ∉ unseen → ∀ row ∈ (h.table id).toList,
    Settled unseen live pending row.1.toValue ∧ Settled unseen live pending row.2

/-- When nothing is pending, everything that can be reached from a settled value is settled. -/
theorem Marked.settled_of_reaches (hmarked : h.Marked unseen live []) {v w : Value}
    (hv : Settled unseen live [] v) (hw : h.Reaches v w) : Settled unseen live [] w := by
  induction hw with
  | refl => exact hv
  | key _ hrow ih => exact (hmarked _ (by simpa [Settled] using ih) _ hrow).1
  | value _ hrow ih => exact (hmarked _ (by simpa [Settled] using ih) _ hrow).2

/-- The invariant survives every step after which all settled values are still settled. -/
theorem Marked.mono (hmarked : h.Marked unseen live pending) {live' : Std.TreeSet StringId}
    {pending' : List Value}
    (hsettled : ∀ v, Settled unseen live pending v → Settled unseen live' pending' v) :
    h.Marked unseen live' pending' :=
  fun id hid row hrow => (hmarked id hid row hrow).imp (hsettled _) (hsettled _)

/-- Marking finds every string that can be reached from a settled value. -/
theorem Marked.mem_reach (hmarked : h.Marked unseen live pending) {v : Value}
    (hv : Settled unseen live pending v) {id : StringId} (hid : h.Reaches v (.str id)) :
    id ∈ h.reach unseen live pending := by
  induction unseen, live, pending using Heap.reach.induct h generalizing v with
  | case1 unseen live =>
    rw [reach]
    simpa [Settled] using hmarked.settled_of_reaches hv hid
  | case2 unseen live other pending ih =>
    rw [reach]
    have hsettled (w : Value) (hw : Settled unseen live (.str other :: pending) w) :
        Settled unseen (live.insert other) pending w := by
      rcases hw with hw | hw
      · rcases List.mem_cons.mp hw with rfl | hw
        · exact .inr (by simp)
        · exact .inl hw
      · right
        cases w with
        | str id => exact Std.TreeSet.mem_insert.mpr (.inr hw)
        | table id => exact hw
        | _ => trivial
    exact ih (hmarked.mono hsettled) (hsettled v hv) hid
  | case3 unseen live table pending hunseen _ ih =>
    rw [reach, dif_pos hunseen]
    have hsettled (w : Value) (hw : Settled unseen live (.table table :: pending) w) :
        Settled (unseen.erase table) ((h.table table).keyStrings live)
          ((h.table table).values ++ pending) w := by
      rcases hw with hw | hw
      · rcases List.mem_cons.mp hw with rfl | hw
        · exact .inr (by simp)
        · exact .inl (List.mem_append_right _ hw)
      · right
        cases w with
        | str id => exact Table.mem_keyStrings_iff.mpr (.inl hw)
        | table id => exact fun hmem => hw (Std.TreeSet.mem_of_mem_erase hmem)
        | _ => trivial
    refine ih (fun other hother row hrow => ?_) (hsettled v hv) hid
    by_cases heq : other = table
    · subst heq
      refine ⟨?_, .inl (List.mem_append_left _ (List.mem_map_of_mem hrow))⟩
      obtain ⟨key, value⟩ := row
      cases key with
      | int n => exact .inr trivial
      | str id => exact .inr (Table.mem_keyStrings_iff.mpr (.inr ⟨value, hrow⟩))
    · have hseen : other ∉ unseen := by
        intro hmem
        refine hother (Std.TreeSet.mem_erase.mpr ⟨?_, hmem⟩)
        simpa [Std.compare_eq_iff_eq] using Ne.symm heq
      exact (hmarked other hseen row hrow).imp (hsettled _) (hsettled _)
  | case4 unseen live table pending hunseen ih =>
    rw [reach, dif_neg hunseen]
    exact ih (hmarked.mono fun w hw => hw.of_cons (.inr hunseen)) (hv.of_cons (.inr hunseen)) hid
  | case5 unseen live pending ih | case6 unseen live _ pending ih | case7 unseen live _ pending ih
  | case8 unseen live _ pending ih =>
    rw [reach]
    exact ih (hmarked.mono fun w hw => hw.of_cons (.inr trivial)) (hv.of_cons (.inr trivial)) hid

/-- Marking adds only strings that can be reached from a pending value. -/
theorem reaches_of_mem_reach {id : StringId} (hid : id ∈ h.reach unseen live pending) :
    id ∈ live ∨ ∃ v ∈ pending, h.Reaches v (.str id) := by
  induction unseen, live, pending using Heap.reach.induct h with
  | case1 unseen live =>
    rw [reach] at hid
    exact .inl hid
  | case2 unseen live other pending ih =>
    rw [reach] at hid
    rcases ih hid with hmem | ⟨v, hv, hreach⟩
    · rcases Std.TreeSet.mem_insert.mp hmem with heq | hmem
      · rw [← Std.compare_eq_iff_eq.mp heq]
        exact .inr ⟨_, List.mem_cons_self, .refl⟩
      · exact .inl hmem
    · exact .inr ⟨v, List.mem_cons_of_mem _ hv, hreach⟩
  | case3 unseen live table pending hunseen _ ih =>
    rw [reach, dif_pos hunseen] at hid
    rcases ih hid with hmem | ⟨v, hv, hreach⟩
    · rcases Table.mem_keyStrings_iff.mp hmem with hmem | ⟨value, hrow⟩
      · exact .inl hmem
      · exact .inr ⟨_, List.mem_cons_self, .key .refl hrow⟩
    · rcases List.mem_append.mp hv with hv | hv
      · obtain ⟨row, hrow, rfl⟩ := List.mem_map.mp hv
        exact .inr ⟨_, List.mem_cons_self, Reaches.trans (.value .refl hrow) hreach⟩
      · exact .inr ⟨v, List.mem_cons_of_mem _ hv, hreach⟩
  | case4 unseen live table pending hunseen ih =>
    rw [reach, dif_neg hunseen] at hid
    exact (ih hid).imp_right fun ⟨v, hv, hreach⟩ => ⟨v, List.mem_cons_of_mem _ hv, hreach⟩
  | case5 unseen live pending ih | case6 unseen live _ pending ih | case7 unseen live _ pending ih
  | case8 unseen live _ pending ih =>
    rw [reach] at hid
    exact (ih hid).imp_right fun ⟨v, hv, hreach⟩ => ⟨v, List.mem_cons_of_mem _ hv, hreach⟩

/-- Before marking starts no table of the heap has been visited, and all others are empty. -/
theorem marked_ids (h : Heap) (live : Std.TreeSet StringId) (pending : List Value) :
    h.Marked (.ofList h.ids) live pending := by
  intro id hid row hrow
  have hout : h.tables.size ≤ id.index := by
    refine Nat.le_of_not_lt fun hlt => hid (Std.TreeSet.mem_ofList.mpr ?_)
    have hmem : id ∈ h.ids := List.mem_map.mpr ⟨id.index, List.mem_range.mpr hlt, rfl⟩
    simpa using hmem
  have hempty : h.table id = {} := by simp [table, Array.getElem?_eq_none hout]
  rw [hempty] at hrow
  cases hrow

end Marking

end Heap

namespace Machine

variable {ν : Type}

/-- A string that a machine needs: it belongs to the program, names a global variable, or can be
reached from a root. -/
def Needs (m : Machine ν) (id : StringId) : Prop :=
  id ∈ m.programStrings ∨ id ∈ m.store.globals ∨
    ∃ v ∈ m.roots, m.store.heap.Reaches v (.str id)

/-- What can be reached from a global variable is needed. -/
theorem needs_of_global {m : Machine ν} {id other : StringId} {v : Value}
    (hv : m.store.globals[other]? = some v) (h : m.store.heap.Reaches v (.str id)) :
    m.Needs id := by
  refine .inr (.inr ⟨v, ?_, h⟩)
  have hmem : v ∈ m.store.globals.values := by
    rw [values_eq_map_snd]
    exact List.mem_map.mpr ⟨(other, v), Std.TreeMap.mem_toList_iff_getElem?_eq_some.mpr hv, rfl⟩
  simp [roots, hmem]

/-- A machine needs what its stack reaches. -/
theorem needs_of_stack {m : Machine ν} {id : StringId} {v : Value} (hv : v ∈ m.stack)
    (h : m.store.heap.Reaches v (.str id)) : m.Needs id := by
  refine .inr (.inr ⟨v, ?_, h⟩)
  simp [roots, hv]

/-- A machine needs what its local symbols reach. -/
theorem needs_of_local {m : Machine ν} {id : StringId} {f : Frame} {v : Value}
    (hf : f ∈ m.frames) (hv : v ∈ f.locals) (h : m.store.heap.Reaches v (.str id)) :
    m.Needs id := by
  refine .inr (.inr ⟨v, ?_, h⟩)
  have hmem : ∃ g ∈ m.frames, v ∈ g.locals := ⟨f, hf, hv⟩
  simp [roots, hmem]

/-- A machine needs what its listener reaches. -/
theorem needs_of_listener {m : Machine ν} {id : StringId} {v : Value}
    (hv : m.store.listener = some v) (h : m.store.heap.Reaches v (.str id)) : m.Needs id := by
  refine .inr (.inr ⟨v, ?_, h⟩)
  simp [roots, hv]

/-- A machine needs what the table of neighbors reaches. -/
theorem needs_of_neighbors {m : Machine ν} {id : StringId}
    (h : m.store.heap.Reaches (.table m.store.neighborsTable) (.str id)) : m.Needs id := by
  refine .inr (.inr ⟨_, ?_, h⟩)
  simp [roots]

/-- The live strings of a machine are exactly those that it needs. -/
theorem contains_liveStrings_iff (m : Machine ν) (id : StringId) :
    m.liveStrings.contains id = true ↔ m.Needs id := by
  have hnamed (live : Std.TreeSet StringId)
      (hlive : live = .ofList (m.programStrings.toList ++ m.store.globals.keys)) :
      id ∈ live ↔ id ∈ m.programStrings ∨ id ∈ m.store.globals := by
    simp [hlive]
  unfold liveStrings
  simp only [Std.TreeSet.contains_iff_mem]
  constructor
  · intro hid
    rcases Heap.reaches_of_mem_reach hid with hmem | ⟨v, hv, hreach⟩
    · exact ((hnamed _ rfl).mp hmem).imp_right .inl
    · exact .inr (.inr ⟨v, hv, hreach⟩)
  · rintro (hid | hid | ⟨v, hv, hreach⟩)
    · have hmarked := m.store.heap.marked_ids
        (.ofList (m.programStrings.toList ++ m.store.globals.keys)) m.roots
      exact hmarked.mem_reach (.inr ((hnamed _ rfl).mpr (.inl hid))) .refl
    · have hmarked := m.store.heap.marked_ids
        (.ofList (m.programStrings.toList ++ m.store.globals.keys)) m.roots
      exact hmarked.mem_reach (.inr ((hnamed _ rfl).mpr (.inr hid))) .refl
    · exact (m.store.heap.marked_ids _ _).mem_reach (.inl hv) hreach

end Machine

end Swarm
