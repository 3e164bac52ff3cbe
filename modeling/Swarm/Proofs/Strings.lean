import Mathlib.Data.Set.Card
import Swarm.Machine.Builtin

/-!
# String tables are injective

In a consistent table the ids of strings and the slots say the same, and the free
list names every empty slot once. All operations keep tables consistent: an added
string takes a slot that held nothing, and a sweep empties the slots that are not
live and no others.
-/

namespace Swarm.StringTable

variable {t : StringTable} {id : StringId} {value : Bytes}

/-- The slot of the id holds the string. -/
def Stores (t : StringTable) (id : StringId) (value : Bytes) : Prop :=
  t.slots[id.index]? = some (some value)

/-- The slot of the id holds some string. -/
def Holds (t : StringTable) (id : StringId) : Prop := ∃ value, t.Stores id value

/-- Ids and slots agree, and the free list has the empty slots without repetition. -/
structure Consistent (t : StringTable) : Prop where
  lookup_iff : ∀ value id, t.lookup value = some id ↔ t.Stores id value
  free_iff : ∀ id, id ∈ t.free ↔ t.slots[id.index]? = some none
  nodup : t.free.Nodup

/-- A slot holds at most one string. -/
theorem Stores.unique {other : Bytes} (h : t.Stores id value) (h' : t.Stores id other) :
    value = other := by
  unfold Stores at h h'
  rw [h] at h'
  exact Option.some.inj (Option.some.inj h')

/-- An id that stores a string holds one. -/
theorem Stores.holds (h : t.Stores id value) : t.Holds id := ⟨value, h⟩

/-- The string that a slot holds is the string of its id. -/
theorem Stores.get_eq (h : t.Stores id value) : t.get id = value := by
  unfold Stores at h
  simp [get, h]

/-- An id that stores a string is within the slots. -/
theorem Stores.index_lt (h : t.Stores id value) : id.index < t.slots.size :=
  (Array.getElem?_eq_some_iff.mp h).1

/-- Equal strings have equal ids in a consistent table. -/
theorem Consistent.stores_injective {other : StringId} (ht : t.Consistent)
    (h : t.Stores id value) (h' : t.Stores other value) : id = other := by
  have hid := (ht.lookup_iff value id).mpr h
  rw [(ht.lookup_iff value other).mpr h'] at hid
  exact (Option.some.inj hid).symm

/-- Ids with the same index are the same. -/
theorem StringId.index_injective {a b : StringId} (h : a.index = b.index) : a = b := by
  cases a
  cases b
  simpa using h

/-- The empty table is consistent. -/
theorem consistent_empty : Consistent {} where
  lookup_iff value id := by simp [lookup, Stores]
  free_iff id := by simp
  nodup := List.nodup_nil

/-- The id given to a string that is added held nothing before. -/
theorem Consistent.not_holds_add (ht : t.Consistent) (value : Bytes) :
    ¬ t.Holds (t.add value).2 := by
  rintro ⟨other, hother⟩
  unfold add at hother
  split at hother
  · rename_i id free hfree
    have hempty := (ht.free_iff id).mp (by simp [hfree])
    unfold Stores at hother
    rw [hempty] at hother
    cases hother
  · exact absurd hother.index_lt (Nat.lt_irrefl _)

/-- Adding a string fills one slot and leaves all others alone. -/
theorem Consistent.getElem?_slots_add (ht : t.Consistent) (added : Bytes) (index : Nat) :
    (t.add added).1.slots[index]? =
      if index = (t.add added).2.index then some (some added) else t.slots[index]? := by
  unfold add
  split
  · rename_i first free hfree
    have hempty := (ht.free_iff first).mp (by simp [hfree])
    have hlt := (Array.getElem?_eq_some_iff.mp hempty).1
    by_cases hindex : index = first.index
    · subst hindex
      simp [hlt]
    · simp [hindex, Ne.symm hindex]
  · simp only [Array.getElem?_push]

/-- After an addition the new id holds the new string and all others hold what they held. -/
theorem Consistent.stores_add_iff (ht : t.Consistent) (added : Bytes) :
    (t.add added).1.Stores id value ↔
      (id = (t.add added).2 ∧ value = added) ∨ t.Stores id value := by
  unfold Stores
  rw [ht.getElem?_slots_add]
  by_cases hid : id = (t.add added).2
  · have hold : t.slots[id.index]? ≠ some (some value) :=
      fun h => ht.not_holds_add added (hid ▸ ⟨value, h⟩)
    simp [hid, hid ▸ hold, eq_comm]
  · have hindex : id.index ≠ (t.add added).2.index := fun h => hid (StringId.index_injective h)
    simp [hid, hindex]

/-- Adding a string gives it its id and leaves the ids of all others alone. -/
theorem lookup_add (t : StringTable) (added value : Bytes) :
    (t.add added).1.lookup value =
      if value = added then some (t.add added).2 else t.lookup value := by
  unfold add lookup
  split <;> simp only [Std.TreeMap.getElem?_insert, Std.compare_eq_iff_eq, @eq_comm _ added]

/-- Adding a string that is missing keeps a table consistent. -/
theorem Consistent.add (ht : t.Consistent) {added : Bytes} (hmissing : t.lookup added = none) :
    (t.add added).1.Consistent where
  lookup_iff value id := by
    have hmiss : ¬ t.Stores id added := fun h => by
      rw [(ht.lookup_iff added id).mpr h] at hmissing
      cases hmissing
    rw [t.lookup_add, ht.stores_add_iff]
    by_cases hvalue : value = added
    · subst hvalue
      simp [hmiss, eq_comm]
    · simp [hvalue, ht.lookup_iff]
  free_iff id := by
    rw [ht.getElem?_slots_add]
    have hnodup := ht.nodup
    have hfree := ht.free_iff id
    unfold StringTable.add
    split
    · rename_i first free heq
      rw [heq] at hnodup hfree
      have hfirst := (List.nodup_cons.mp hnodup).1
      by_cases hid : id = first
      · simp [hid, hfirst]
      · have hindex : id.index ≠ first.index := fun h => hid (StringId.index_injective h)
        simpa [hid, hindex] using hfree
    · rename_i heq
      rw [heq] at hfree
      by_cases hindex : id.index = t.slots.size
      · simp [hindex, heq]
      · simpa [hindex, heq] using hfree
  nodup := by
    have hnodup := ht.nodup
    unfold StringTable.add
    split
    · rename_i first free heq
      rw [heq] at hnodup
      exact (List.nodup_cons.mp hnodup).2
    · exact hnodup

/-- Interning a string gives it its id and leaves the ids of all others alone. -/
theorem lookup_intern (t : StringTable) (added value : Bytes) :
    (t.intern added).1.lookup value =
      if value = added then some (t.intern added).2 else t.lookup value := by
  unfold intern
  split
  · rename_i id hid
    by_cases hvalue : value = added
    · simpa [hvalue] using hid
    · simp [hvalue]
  · exact t.lookup_add added value

/-- Interning keeps a table consistent. -/
theorem Consistent.intern (ht : t.Consistent) (value : Bytes) :
    (t.intern value).1.Consistent := by
  unfold StringTable.intern
  split
  · exact ht
  · rename_i hmissing
    exact ht.add hmissing

/-- The id of an interned string holds it. -/
theorem Consistent.stores_intern (ht : t.Consistent) (value : Bytes) :
    (t.intern value).1.Stores (t.intern value).2 value := by
  unfold StringTable.intern
  split
  · rename_i id hid
    exact (ht.lookup_iff value id).mp hid
  · exact (ht.stores_add_iff value).mpr (.inl ⟨rfl, rfl⟩)

/-- Interning forgets no string. -/
theorem Consistent.stores_of_intern (ht : t.Consistent) (other : Bytes)
    (h : t.Stores id value) : (t.intern other).1.Stores id value := by
  unfold StringTable.intern
  split
  · exact h
  · exact (ht.stores_add_iff other).mpr (.inr h)

/-- Emptying a slot forgets the string in it and no other one. -/
theorem stores_release_iff {released : StringId} (h : t.Stores released value) {other : Bytes} :
    (t.release released value).Stores id other ↔ t.Stores id other ∧ id ≠ released := by
  have hlt := h.index_lt
  unfold Stores release
  by_cases hid : id = released
  · simp [hid, hlt]
  · have hindex : released.index ≠ id.index := fun heq => hid (StringId.index_injective heq).symm
    simp [hid, hindex]

/-- Emptying the slot of a string keeps a table consistent. -/
theorem Consistent.release (ht : t.Consistent) (h : t.Stores id value) :
    (t.release id value).Consistent where
  lookup_iff other id' := by
    have hids : (t.release id value).lookup other =
        if other = value then none else t.lookup other := by
      simp only [StringTable.release, lookup, Std.TreeMap.getElem?_erase, Std.compare_eq_iff_eq,
        @eq_comm _ value]
    rw [hids, stores_release_iff h]
    by_cases hother : other = value
    · subst hother
      simp only [if_true, reduceCtorEq, false_iff, not_and, not_not]
      exact fun h' => ht.stores_injective h' h
    · have hne : t.Stores id' other → id' ≠ id := by
        rintro h' rfl
        exact hother (h'.unique h)
      simpa [hother, ht.lookup_iff] using hne
  free_iff id' := by
    have hlt := h.index_lt
    have hfree := ht.free_iff id'
    simp only [StringTable.release, List.mem_cons]
    by_cases hid : id' = id
    · simp [hid, hlt]
    · have hindex : id.index ≠ id'.index := fun heq => hid (StringId.index_injective heq).symm
      simpa [hid, hindex] using hfree
  nodup := by
    refine List.nodup_cons.mpr ⟨fun hmem => ?_, ht.nodup⟩
    have hempty := (ht.free_iff id).mp hmem
    unfold Stores at h
    rw [h] at hempty
    cases hempty

/-- Emptying the slot of a string leaves one string less. -/
theorem Consistent.size_release (ht : t.Consistent) (h : t.Stores id value) :
    (t.release id value).size + 1 = t.size := by
  have hlookup : t.ids[value]? = some id := (ht.lookup_iff value id).mpr h
  have hcontains : t.ids.contains value = true := by
    rw [Std.TreeMap.contains_eq_isSome_getElem?, hlookup]
    rfl
  have hpos : t.ids.size ≠ 0 := by
    intro hzero
    have hempty : t.ids.isEmpty = true := by
      simp [Std.TreeMap.isEmpty_eq_size_eq_zero, hzero]
    rw [Std.TreeMap.contains_of_isEmpty hempty] at hcontains
    cases hcontains
  simp only [size, StringTable.release, Std.TreeMap.size_erase, hcontains, if_true]
  omega

/-- A list without repetition has as many members as entries. -/
theorem ncard_mem {α : Type} {l : List α} (h : l.Nodup) : {a | a ∈ l}.ncard = l.length := by
  classical
  have hset : {a | a ∈ l} = ↑l.toFinset := by
    ext a
    simp
  rw [hset, Set.ncard_coe_finset, List.toFinset_card_of_nodup h]

/-- The number of strings is the number of ids that hold one. -/
theorem Consistent.size_eq_ncard (ht : t.Consistent) : t.size = {id | t.Holds id}.ncard := by
  have hkeys : {value | value ∈ t.ids.keys}.ncard = t.size := by
    have hnodup : t.ids.keys.Nodup := by
      have hdistinct := Std.TreeMap.distinct_keys (t := t.ids)
      exact hdistinct.imp fun h heq => h (Std.compare_eq_iff_eq.mpr heq)
    rw [ncard_mem hnodup, Std.TreeMap.length_keys]
    rfl
  rw [← hkeys]
  symm
  refine Set.ncard_congr (fun id _ => t.get id) ?_ ?_ ?_
  · rintro id ⟨value, h⟩
    have hlookup : t.ids[value]? = some id := (ht.lookup_iff value id).mpr h
    simp only [h.get_eq, Set.mem_ofPred_eq, Std.TreeMap.mem_keys]
    exact Std.TreeMap.mem_iff_isSome_getElem?.mpr (by simp [hlookup])
  · rintro id other ⟨value, h⟩ ⟨value', h'⟩ heq
    rw [h.get_eq, h'.get_eq] at heq
    exact ht.stores_injective h (heq ▸ h')
  · intro value hvalue
    have hsome := Std.TreeMap.mem_iff_isSome_getElem?.mp (Std.TreeMap.mem_keys.mp hvalue)
    obtain ⟨id, hid⟩ := Option.isSome_iff_exists.mp hsome
    have h := (ht.lookup_iff value id).mp hid
    exact ⟨id, h.holds, h.get_eq⟩

/-- A sweep over different ids empties the slots among them that are not live, and the count
grows by what the table shrinks. -/
theorem Consistent.foldl_sweep (live : StringId → Bool) {ids : List StringId}
    (hnodup : ids.Nodup) (ht : t.Consistent) (count : Nat) :
    (ids.foldl (sweep live) (t, count)).1.Consistent ∧
      (∀ id value, (ids.foldl (sweep live) (t, count)).1.Stores id value ↔
        t.Stores id value ∧ (id ∈ ids → live id = true)) ∧
      (ids.foldl (sweep live) (t, count)).2 + (ids.foldl (sweep live) (t, count)).1.size =
        count + t.size := by
  induction ids generalizing t count with
  | nil => simp [ht]
  | cons first rest ih =>
    obtain ⟨hfirst, hrest⟩ := List.nodup_cons.mp hnodup
    simp only [List.foldl_cons]
    by_cases hlive : live first = true
    · have hsweep : sweep live (t, count) first = (t, count) := by simp [sweep, hlive]
      obtain ⟨hcons, hstores, hsize⟩ := ih hrest ht count
      rw [hsweep]
      refine ⟨hcons, fun id value => ?_, hsize⟩
      rw [hstores]
      by_cases hid : id = first
      · simp [hid, hfirst, hlive]
      · simp [hid]
    · cases hslot : t.slots[first.index]?.getD none with
      | none =>
        have hsweep : sweep live (t, count) first = (t, count) := by
          simp [sweep, hlive, hslot]
        obtain ⟨hcons, hstores, hsize⟩ := ih hrest ht count
        rw [hsweep]
        refine ⟨hcons, fun id value => ?_, hsize⟩
        rw [hstores]
        by_cases hid : id = first
        · have hnot : ¬ t.Stores id value := by
            unfold Stores
            intro h
            rw [← hid, h] at hslot
            cases hslot
          simp [hnot]
        · simp [hid]
      | some removed =>
        have hstored : t.Stores first removed := by
          unfold Stores
          cases hget : t.slots[first.index]? with
          | none => simp [hget] at hslot
          | some slot => simpa [hget] using hslot
        have hsweep : sweep live (t, count) first = (t.release first removed, count + 1) := by
          simp [sweep, hlive, hslot]
        obtain ⟨hcons, hstores, hsize⟩ := ih hrest (ht.release hstored) (count + 1)
        have hless := ht.size_release hstored
        rw [hsweep]
        refine ⟨hcons, fun id value => ?_, by omega⟩
        rw [hstores, stores_release_iff hstored]
        by_cases hid : id = first
        · simp [hid, hlive]
        · simp [hid]

/-- Every slot has its turn once when strings are released. -/
theorem nodup_range_ids (n : Nat) : ((List.range n).map StringId.mk).Nodup :=
  List.nodup_range.map fun a b h => by simpa using h

/-- The ids of a range are those with an index below its bound. -/
theorem mem_range_ids_iff {n : Nat} : id ∈ (List.range n).map StringId.mk ↔ id.index < n := by
  obtain ⟨index⟩ := id
  simp

/-- Releasing keeps a table consistent. -/
theorem Consistent.retain (ht : t.Consistent) (live : StringId → Bool) :
    (t.retain live).1.Consistent :=
  (ht.foldl_sweep live (nodup_range_ids _) 0).1

/-- After a release the table has exactly the live strings, under the ids they had. -/
theorem Consistent.stores_retain_iff (ht : t.Consistent) (live : StringId → Bool) :
    (t.retain live).1.Stores id value ↔ t.Stores id value ∧ live id = true := by
  unfold StringTable.retain
  rw [(ht.foldl_sweep live (nodup_range_ids _) 0).2.1]
  refine and_congr_right fun h => ?_
  have hmem : id ∈ (List.range t.slots.size).map StringId.mk := mem_range_ids_iff.mpr h.index_lt
  simp [hmem]

/-- After a release the live strings have the ids that they had, and the others have none. -/
theorem Consistent.lookup_retain (ht : t.Consistent) (live : StringId → Bool) (value : Bytes) :
    (t.retain live).1.lookup value = (t.lookup value).filter live := by
  ext id
  rw [(ht.retain live).lookup_iff, ht.stores_retain_iff, Option.filter_eq_some_iff, ht.lookup_iff]

/-- The number that a release returns is the number of strings that were not live. -/
theorem Consistent.retain_count (ht : t.Consistent) (live : StringId → Bool) :
    (t.retain live).2 = {id | t.Holds id ∧ live id = false}.ncard := by
  have hsize : (t.retain live).2 + (t.retain live).1.size = t.size := by
    simpa [StringTable.retain] using (ht.foldl_sweep live (nodup_range_ids t.slots.size) 0).2.2
  have hkept : {id | (t.retain live).1.Holds id} = {id | t.Holds id ∧ live id = true} := by
    ext id
    simp [Holds, ht.stores_retain_iff]
  have hsplit : {id | t.Holds id} =
      {id | t.Holds id ∧ live id = true} ∪ {id | t.Holds id ∧ live id = false} := by
    ext id
    cases hlive : live id <;> simp [hlive]
  have hdisjoint :
      Disjoint {id | t.Holds id ∧ live id = true} {id | t.Holds id ∧ live id = false} := by
    refine Set.disjoint_left.mpr fun id h h' => ?_
    have heq : true = false := h.2.symm.trans h'.2
    cases heq
  have hfinite : {id | t.Holds id}.Finite := by
    refine ((List.range t.slots.size).map StringId.mk).finite_toSet.subset ?_
    rintro id ⟨value, h⟩
    exact mem_range_ids_iff.mpr h.index_lt
  rw [hsplit] at hfinite
  have hunion := Set.ncard_union_eq hdisjoint (hfinite.subset Set.subset_union_left)
    (hfinite.subset Set.subset_union_right)
  rw [← hsplit, ← ht.size_eq_ncard, ← hkept, ← (ht.retain live).size_eq_ncard] at hunion
  omega

end Swarm.StringTable
