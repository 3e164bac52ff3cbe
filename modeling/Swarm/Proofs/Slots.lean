import Mathlib.Order.Bounds.Defs
import Swarm.Proofs.Strings

/-!
# Slots are used again

Strings are interned in a table and released from it in any order. At every moment the ids of the
strings in the table tell them apart. A released id has no string until a new string gets it, and
a new slot is made only when all slots are in use, so there are as many slots as there have been
strings at one time.
-/

namespace Swarm.StringTable

variable {t : StringTable} {id : StringId} {value : Bytes}

/-- A change of a string table. -/
inductive Change where
  /-- Intern a string. -/
  | intern (value : Bytes)
  /-- Release all strings whose ids are not live. -/
  | retain (live : StringId → Bool)

/-- The table after a change. -/
def Change.apply (t : StringTable) : Change → StringTable
  | .intern value => (t.intern value).1
  | .retain live => (t.retain live).1

/-- The table after changes. -/
def applyAll (t : StringTable) (changes : List Change) : StringTable := changes.foldl Change.apply t

/-- One of the changes interns a string and gets the id for it. -/
def HandsOut (t : StringTable) (changes : List Change) (id : StringId) : Prop :=
  ∃ before value rest, changes = before ++ .intern value :: rest ∧
    ((t.applyAll before).intern value).2 = id

/-! ### Slots in use and free slots -/

/-- Every slot is in use or free. -/
theorem Consistent.size_slots (ht : t.Consistent) : t.slots.size = t.size + t.free.length := by
  have hsplit : {id | id ∈ (List.range t.slots.size).map StringId.mk} =
      {id | t.Holds id} ∪ {id | id ∈ t.free} := by
    ext id
    simp only [Set.mem_union, Set.mem_ofPred_eq, mem_range_ids_iff, ht.free_iff]
    constructor
    · intro hlt
      cases hslot : t.slots[id.index] with
      | none => exact .inr (by rw [Array.getElem?_eq_getElem hlt, hslot])
      | some value => exact .inl ⟨value, by rw [Stores, Array.getElem?_eq_getElem hlt, hslot]⟩
    · rintro (⟨value, hstores⟩ | hempty)
      · exact hstores.index_lt
      · exact (Array.getElem?_eq_some_iff.mp hempty).1
  have hdisjoint : Disjoint {id | t.Holds id} {id | id ∈ t.free} := by
    refine Set.disjoint_left.mpr ?_
    rintro id ⟨value, hstores⟩ hmem
    have hempty := (ht.free_iff id).mp hmem
    rw [hstores] at hempty
    cases hempty
  have hfinite : ({id | t.Holds id} ∪ {id | id ∈ t.free}).Finite :=
    hsplit ▸ List.finite_toSet _
  have hunion := Set.ncard_union_eq hdisjoint (hfinite.subset Set.subset_union_left)
    (hfinite.subset Set.subset_union_right)
  rwa [← hsplit, ncard_mem (nodup_range_ids _), List.length_map, List.length_range,
    ← ht.size_eq_ncard, ncard_mem ht.nodup] at hunion

/-- Releasing strings makes and removes no slots. -/
theorem size_slots_retain (t : StringTable) (live : StringId → Bool) :
    (t.retain live).1.slots.size = t.slots.size := by
  have hsweep (t : StringTable × Nat) (id : StringId) :
      (sweep live t id).1.slots.size = t.1.slots.size := by
    unfold sweep
    split
    · rfl
    · split
      · rfl
      · exact Array.size_setIfInBounds
  have hfold (ids : List StringId) (t : StringTable × Nat) :
      (ids.foldl (sweep live) t).1.slots.size = t.1.slots.size := by
    induction ids generalizing t with
    | nil => rfl
    | cons id ids ih => rw [List.foldl_cons, ih, hsweep]
  exact hfold _ _

/-- A string that is interned takes a slot that is there, or all slots are in use then. -/
theorem Consistent.size_slots_intern (ht : t.Consistent) (value : Bytes) :
    (t.intern value).1.slots.size = t.slots.size ∨
      t.slots.size ≤ (t.intern value).1.slots.size ∧
        (t.intern value).1.slots.size = (t.intern value).1.size := by
  have hall := (ht.intern value).size_slots
  unfold StringTable.intern at hall ⊢
  split at hall
  · exact .inl rfl
  · unfold StringTable.add at hall ⊢
    split at hall
    · exact .inl Array.size_setIfInBounds
    · rename_i hfree
      refine .inr ⟨by simp, ?_⟩
      rw [hall]
      simp [hfree]

/-! ### Changes of a consistent table -/

section Changes

variable {changes : List Change}

/-- The last change is applied after the others. -/
theorem applyAll_concat (t : StringTable) (changes : List Change) (c : Change) :
    t.applyAll (changes ++ [c]) = c.apply (t.applyAll changes) := by
  simp [applyAll]

/-- A change keeps a table consistent. -/
theorem Consistent.apply (ht : t.Consistent) (c : Change) : (c.apply t).Consistent := by
  cases c with
  | intern value => exact ht.intern value
  | retain live => exact ht.retain live

/-- Changes keep a table consistent. -/
theorem Consistent.applyAll (ht : t.Consistent) (changes : List Change) :
    (t.applyAll changes).Consistent := by
  induction changes using List.reverseRecOn with
  | nil => exact ht
  | append_singleton changes c ih =>
    rw [applyAll_concat]
    exact ih.apply c

/-- Interning a string makes its id hold it and changes nothing else. -/
theorem Consistent.stores_intern_iff (ht : t.Consistent) (added : Bytes) :
    (t.intern added).1.Stores id value ↔
      (id = (t.intern added).2 ∧ value = added) ∨ t.Stores id value := by
  unfold StringTable.intern
  split
  · rename_i known hknown
    have hstores := (ht.lookup_iff added known).mp hknown
    exact ⟨.inr, fun h => h.elim (fun ⟨hid, hvalue⟩ => hid ▸ hvalue ▸ hstores) fun h => h⟩
  · exact ht.stores_add_iff added

/-- An id that has no string has none until it is handed out. -/
theorem Consistent.not_holds_applyAll (ht : t.Consistent) (hid : ¬t.Holds id)
    (hkept : ¬t.HandsOut changes id) : ¬(t.applyAll changes).Holds id := by
  induction changes using List.reverseRecOn with
  | nil => exact hid
  | append_singleton changes c ih =>
    have hbefore : ¬(t.applyAll changes).Holds id := ih fun ⟨before, value, rest, heq, hout⟩ =>
      hkept ⟨before, value, rest ++ [c], by simp [heq], hout⟩
    have hconsistent := ht.applyAll changes
    rw [applyAll_concat]
    rintro ⟨value, hstores⟩
    cases c with
    | intern added =>
      rcases (hconsistent.stores_intern_iff added).mp hstores with ⟨hnew, -⟩ | hold
      · exact hkept ⟨changes, added, [], rfl, hnew.symm⟩
      · exact hbefore ⟨value, hold⟩
    | retain live => exact hbefore ⟨value, ((hconsistent.stores_retain_iff live).mp hstores).1⟩

/-- A string that is not in a table is not in it until it is interned. -/
theorem Consistent.not_stores_applyAll (ht : t.Consistent) (hvalue : ∀ id, ¬t.Stores id value)
    (hkept : .intern value ∉ changes) (id : StringId) : ¬(t.applyAll changes).Stores id value := by
  induction changes using List.reverseRecOn with
  | nil => exact hvalue id
  | append_singleton changes c ih =>
    rw [List.mem_append, List.mem_singleton, not_or] at hkept
    have hbefore := ih hkept.1
    have hconsistent := ht.applyAll changes
    rw [applyAll_concat]
    intro hstores
    cases c with
    | intern added =>
      rcases (hconsistent.stores_intern_iff added).mp hstores with ⟨-, rfl⟩ | hold
      · exact hkept.2 rfl
      · exact hbefore hold
    | retain live => exact hbefore ((hconsistent.stores_retain_iff live).mp hstores).1

/-- An id that holds nothing reads as the empty string. -/
theorem get_eq_nil_of_not_holds (hid : ¬t.Holds id) : t.get id = [] := by
  unfold get
  cases hslot : t.slots[id.index]? with
  | none => rfl
  | some slot =>
    cases slot with
    | none => rfl
    | some value => exact absurd ⟨value, hslot⟩ hid

/-- A string that is stored nowhere is not found. -/
theorem Consistent.lookup_eq_none (ht : t.Consistent) (hvalue : ∀ id, ¬t.Stores id value) :
    t.lookup value = none :=
  Option.eq_none_iff_forall_ne_some.mpr fun id hid => hvalue id ((ht.lookup_iff value id).mp hid)

end Changes

/-! ### Tables that have been empty -/

/-- The table after changes of an empty one. -/
def after (changes : List Change) : StringTable := applyAll {} changes

/-- All tables that there can be are consistent. -/
theorem consistent_after (changes : List Change) : (after changes).Consistent :=
  consistent_empty.applyAll changes

/-- There have been as many strings at one time as there are slots, and never more. The induction
is on the changes: slots are not removed, and when one is made all of them are in use. -/
theorem isGreatest_size_slots (changes : List Change) :
    IsGreatest {n | ∃ before, before <+: changes ∧ (after before).size = n}
      (after changes).slots.size := by
  induction changes using List.reverseRecOn with
  | nil =>
    refine ⟨⟨[], List.prefix_rfl, rfl⟩, ?_⟩
    rintro n ⟨before, hbefore, rfl⟩
    rw [List.prefix_nil.mp hbefore]
    exact Nat.le_refl _
  | append_singleton changes c ih =>
    obtain ⟨⟨peak, hpeak, hsize⟩, hbound⟩ := ih
    have hnow := (consistent_after (changes ++ [c])).size_slots
    have hslots : (after (changes ++ [c])).slots.size = (after changes).slots.size ∨
        (after changes).slots.size ≤ (after (changes ++ [c])).slots.size ∧
          (after (changes ++ [c])).slots.size = (after (changes ++ [c])).size := by
      unfold after
      rw [applyAll_concat]
      cases c with
      | intern value => exact (consistent_after changes).size_slots_intern value
      | retain live => exact .inl (size_slots_retain _ live)
    constructor
    · rcases hslots with hsame | ⟨-, hfull⟩
      · exact ⟨peak, hpeak.trans (List.prefix_append changes [c]), hsize.trans hsame.symm⟩
      · exact ⟨changes ++ [c], List.prefix_rfl, hfull.symm⟩
    · rintro n ⟨before, hbefore, rfl⟩
      rcases List.prefix_concat_iff.mp hbefore with rfl | hbefore
      · omega
      · have hold := hbound ⟨before, hbefore, rfl⟩
        omega

/-- What holds of a string table after changes of an empty one, and of the next changes. -/
structure IdentifiesStrings (changes : List Change) : Prop where
  /-- A string that is in the table keeps its id, and nothing changes. -/
  known : ∀ id value, (after changes).Stores id value →
    (after changes).intern value = (after changes, id)
  /-- Any other string gets an id that had none, and all others keep theirs. -/
  new : ∀ value, (∀ id, ¬(after changes).Stores id value) →
    ¬(after changes).Holds ((after changes).intern value).2 ∧
      ∀ id other, ((after changes).intern value).1.Stores id other ↔
        (id = ((after changes).intern value).2 ∧ other = value) ∨ (after changes).Stores id other
  inverse : ∀ id value, (after changes).lookup value = some id ↔
    (after changes).Holds id ∧ (after changes).get id = value
  retained : ∀ live id value, ((after changes).retain live).1.Stores id value ↔
    (after changes).Stores id value ∧ live id = true
  released : ∀ live, ((after changes).retain live).2 =
    {id | (after changes).Holds id ∧ live id = false}.ncard
  /-- A released id reads as the empty string until it is handed out again. -/
  empty : ∀ live id more, live id = false → ¬((after changes).retain live).1.HandsOut more id →
    (((after changes).retain live).1.applyAll more).get id = []
  /-- A released string is not found until it is interned again. -/
  absent : ∀ live id value more, (after changes).Stores id value → live id = false →
    .intern value ∉ more → (((after changes).retain live).1.applyAll more).lookup value = none
  free : (after changes).free.Nodup ∧
    ∀ id, id ∈ (after changes).free ↔ (after changes).slots[id.index]? = some none
  /-- There are as many slots as there have been strings at one time. -/
  slots : IsGreatest {n | ∃ before, before <+: changes ∧ (after before).size = n}
    (after changes).slots.size
  /-- An id is kept by 32 bits unless there have been more strings at one time. -/
  words : (∀ before, before <+: changes → (after before).size < 2 ^ 32) →
    ∀ id, (after changes).Holds id → (UInt32.ofNat id.index).toNat = id.index

/-- Whatever has been interned and released, and in which order, ids and strings belong together
one to one, and released ids are used again before new ones. -/
theorem identifiesStrings (changes : List Change) : IdentifiesStrings changes := by
  have ht := consistent_after changes
  have hslots := isGreatest_size_slots changes
  have hreleased {live : StringId → Bool} {id : StringId} (hlive : live id = false) :
      ¬((after changes).retain live).1.Holds id := by
    rintro ⟨value, hstores⟩
    rw [((ht.stores_retain_iff live).mp hstores).2] at hlive
    cases hlive
  refine ⟨fun id value h => ?_, fun value h => ⟨?_, fun _ _ => ht.stores_intern_iff value⟩,
    fun id value => ?_, fun live _ _ => ht.stores_retain_iff live, ht.retain_count,
    fun live id more hlive hkept => ?_, fun live id value more h hlive hkept => ?_,
    ⟨ht.nodup, ht.free_iff⟩, hslots, fun hfew id ⟨value, h⟩ => ?_⟩
  · unfold intern
    rw [(ht.lookup_iff value id).mpr h]
  · unfold intern
    rw [ht.lookup_eq_none h]
    exact ht.not_holds_add value
  · rw [ht.lookup_iff]
    exact ⟨fun h => ⟨h.holds, h.get_eq⟩, fun ⟨⟨_, h⟩, hget⟩ => hget ▸ h.get_eq ▸ h⟩
  · exact get_eq_nil_of_not_holds ((ht.retain live).not_holds_applyAll (hreleased hlive) hkept)
  · have hmissing (other : StringId) : ¬((after changes).retain live).1.Stores other value := by
      intro hother
      obtain rfl := ht.stores_injective h ((ht.stores_retain_iff live).mp hother).1
      exact hreleased hlive hother.holds
    exact ((ht.retain live).applyAll more).lookup_eq_none
      ((ht.retain live).not_stores_applyAll hmissing hkept)
  · obtain ⟨before, hbefore, hpeak⟩ := hslots.1
    have hless := hfew before hbefore
    have hindex := h.index_lt
    exact UInt32.toNat_ofNat_of_lt' (by change id.index < 2 ^ 32; omega)

end Swarm.StringTable
