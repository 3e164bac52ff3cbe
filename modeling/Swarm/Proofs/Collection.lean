import Swarm.Proofs.SoundLife

/-!
# Strings are collected exactly

Between two operations the release of strings takes exactly the strings that the
machine does not need, and leaves all others under their ids. A string that a
machine needs is always in the table, so an id that can be reached reads as the
string that it was made for, and after a successful step nothing else is left in
the table.
-/

namespace Swarm

/-- Collecting the strings of the machine releases those that it does not need and no others, and
tells how many they were; collecting them again releases nothing. -/
structure Machine.CollectsExactly (m : Machine Native) : Prop where
  stores : ∀ id value, m.collectStrings.1.Stores id value ↔
    m.store.strings.Stores id value ∧ m.Needs id
  count : m.collectStrings.2 = {id | m.store.strings.Holds id ∧ ¬m.Needs id}.ncard
  get : ∀ id, m.Needs id → m.collectStrings.1.get id = m.store.strings.get id
  lookup : ∀ id, m.Needs id → m.collectStrings.1.lookup (m.store.strings.get id) = some id
  again : m.released.collectStrings.2 = 0
  settled : ∀ id, m.released.Needs id ↔ m.Needs id

namespace Machine

variable {m : Machine Native} {id : StringId}

/-- What a machine needs does not depend on its string table. -/
theorem needs_released_iff : m.released.Needs id ↔ m.Needs id := Iff.rfl

/-- The count is the number of strings that are held and not needed. -/
theorem Sound.collect_count (hm : m.Sound) :
    m.collectStrings.2 = {id | m.store.strings.Holds id ∧ ¬m.Needs id}.ncard := by
  have hcount := hm.store.consistent.retain_count fun id => m.liveStrings.contains id
  have hlive : {id | m.store.strings.Holds id ∧ m.liveStrings.contains id = false} =
      {id | m.store.strings.Holds id ∧ ¬m.Needs id} := by
    ext id
    have hiff : m.liveStrings.contains id = false ↔ ¬m.Needs id := by
      rw [← m.contains_liveStrings_iff, Bool.not_eq_true]
    exact and_congr_right fun _ => hiff
  rw [← hlive]
  exact hcount

/-- After a release the table holds what the machine needs and nothing else. -/
theorem Sound.holds_released_iff (hm : m.Sound) :
    m.released.store.strings.Holds id ↔ m.released.Needs id := by
  constructor
  · rintro ⟨value, hvalue⟩
    exact ((stores_released_iff hm.store.consistent).mp hvalue).2
  · exact hm.released.holds_of_needs

/-- A sound machine collects exactly the strings that it does not need. -/
theorem Sound.collectsExactly (hm : m.Sound) : m.CollectsExactly := by
  have hneeded {id : StringId} (hid : m.Needs id) :
      ∃ value, m.store.strings.Stores id value ∧ m.released.store.strings.Stores id value := by
    obtain ⟨value, hvalue⟩ := hm.holds_of_needs hid
    exact ⟨value, hvalue, (stores_released_iff hm.store.consistent).mpr ⟨hvalue, hid⟩⟩
  refine ⟨fun id value => stores_released_iff hm.store.consistent, hm.collect_count,
    fun id hid => ?_, fun id hid => ?_, ?_, fun id => needs_released_iff⟩
  · obtain ⟨value, hvalue, hkept⟩ := hneeded hid
    exact hkept.get_eq.trans hvalue.get_eq.symm
  · obtain ⟨value, hvalue, hkept⟩ := hneeded hid
    rw [hvalue.get_eq]
    exact (hm.released.store.consistent.lookup_iff value id).mpr hkept
  · have hempty : {id | m.released.store.strings.Holds id ∧ ¬m.released.Needs id} = ∅ := by
      ext id
      have hnot : ¬(m.released.store.strings.Holds id ∧ ¬m.released.Needs id) :=
        fun h => h.2 (hm.holds_released_iff.mp h.1)
      exact iff_of_false hnot fun h => h
    rw [hm.released.collect_count, hempty, Set.ncard_empty]

/-- An operation leaves every string that was stored, unless nothing needs it at the end. -/
theorem Sound.stores_of_descends {σ : Type} {m' : Machine Native} (hm : m.Sound)
    (h : m.Descends σ m') {value : Bytes} (hvalue : m.store.strings.Stores id value)
    (hid : m'.Needs id) : m'.store.strings.Stores id value := by
  have hleads {m₁ : Machine Native} (hlead : m.Leads σ m₁) :
      m₁.Sound ∧ m₁.store.strings.Stores id value := by
    obtain ⟨hsound, hgrows⟩ := Stage.Sound.leads (s := .idle m) hm hlead
    exact ⟨hsound, hgrows.store.stores id value hvalue⟩
  rcases h with hlead | ⟨m₁, hlead, rfl⟩
  · exact (hleads hlead).2
  · obtain ⟨hsound, hstores⟩ := hleads hlead
    exact (stores_released_iff hsound.store.consistent).mpr
      ⟨hstores, needs_released_iff.mp hid⟩

end Machine

namespace Bridge

variable {σ : Type} {b b' : Bridge σ} {vm : Handle} {i i' : Instance}

/-- A successful step ends with a release of strings. -/
theorem exists_released_of_step {fuel : Nat} (h : b.step fuel vm = some (.ok (.ready, b')))
    (hi' : b'.find vm = .ok i') :
    ∃ i, b.find vm = .ok i ∧ ∃ m, i.machine.Leads σ m ∧ i'.machine = m.released := by
  obtain ⟨i, j, world, hfind, hstep, rfl⟩ := exists_of_step h
  have hj := hi'.symm.trans (find_replace hfind rfl)
  cases hj
  exact ⟨i, hfind, (Instance.leads_of_step hstep).1 rfl⟩

/-- An operation leaves the strings that a machine still needs after it. -/
theorem Reachable.stores_after (h : b.Reachable) {fuel : Nat} {op : Operation σ}
    (hop : op.after fuel b = some b') (hi : b.find vm = .ok i) (hi' : b'.find vm = .ok i')
    {id : StringId} {value : Bytes} (hvalue : i.machine.store.strings.Stores id value)
    (hid : i'.machine.Needs id) : i'.machine.store.strings.Stores id value := by
  have hget := getElem?_of_find hi
  rcases follows_after hop _ _ (getElem?_of_find hi') with ⟨j, hj, hdescends⟩ | ⟨hnone, _⟩
  · rw [hget] at hj
    cases hj
    exact (h.sound (mem_of_find hi)).stores_of_descends hdescends hvalue hid
  · rw [hget] at hnone
    cases hnone

/-- Between the operations of the host collecting strings is exact, and every string that can be
reached is in its table, also in the middle of an operation; operations keep the strings that are
needed, and a step that ends in readiness leaves exactly these. -/
theorem Reachable.collection_exact (h : b.Reachable) :
    (∀ i ∈ b.instances, i.machine.CollectsExactly ∧
        ∀ id, i.machine.Needs id → i.machine.store.strings.Holds id) ∧
      (∀ e, b.Underway e → ∀ v ∈ e.values, ∀ id,
        e.machine.store.heap.Reaches v (.str id) → e.machine.store.strings.Holds id) ∧
      (∀ fuel (op : Operation σ) b' vm i i', op.after fuel b = some b' → b.find vm = .ok i →
        b'.find vm = .ok i' → ∀ id value, i.machine.store.strings.Stores id value →
          i'.machine.Needs id → i'.machine.store.strings.Stores id value) ∧
      ∀ fuel vm b' i', b.step fuel vm = some (.ok (.ready, b')) → b'.find vm = .ok i' →
        ∀ id, i'.machine.store.strings.Holds id ↔ i'.machine.Needs id := by
  refine ⟨?_, ?_, ?_, ?_⟩
  · intro i hi
    have hm := h.sound hi
    exact ⟨hm.collectsExactly, fun id => hm.holds_of_needs⟩
  · intro e he v hv id hreach
    exact (h.sound_underway he).trusts_values hv _ hreach
  · intro fuel op b' vm i i' hop hi hi' id value hvalue hid
    exact h.stores_after hop hi hi' hvalue hid
  · intro fuel vm b' i' hstep hi' id
    obtain ⟨i, hi, m, hlead, hmachine⟩ := exists_released_of_step hstep hi'
    rw [hmachine]
    have hm : (Stage.idle m : Stage σ).Sound :=
      (Stage.Sound.leads (s := .idle i.machine) (h.sound (mem_of_find hi)) hlead).1
    exact Machine.Sound.holds_released_iff hm

end Bridge

/-- A script that keeps the last message that it has heard in a table and fails when the machine 9
has sent it, and a debug-symbol table without entries. -/
def Files.forgetful : Files := fun path =>
  if path = "script" then .ok [0x48, 0x49, 0x56, 0x45, 1, 2, 0, 4, 0, 0x6c, 0x61, 0x73, 0x74, 6, 0,
    0x6c, 0x69, 0x73, 0x74, 0x65, 0x6e, 45, 0, 0, 0, 7, 13, 0, 0, 12, 1, 0, 6, 15, 0, 0, 0, 16, 1,
    0, 14, 1, 0, 3, 9, 0, 0, 0, 31, 21, 42, 0, 0, 0, 12, 0, 0, 3, 1, 0, 0, 0, 14, 2, 0, 10, 17, 2,
    27, 17]
  else .ok [0x48, 0x44, 0x42, 0x47, 0, 0]

namespace Bridge

/-- A bridge whose script has heard `hi` and is to hear `yo`. -/
def forgetful : Bridge Unit :=
  (Operation.afterAll 40 (.new 1 0 {} ()) [.load Files.forgetful "script" "symbols" 7,
    .feedMessage ⟨0⟩ 3 [0x68, 0x69], .step ⟨0⟩, .feedMessage ⟨0⟩ 3 [0x79, 0x6f]]).get
      (by decide +kernel)

/-- The same after the script has also heard `no` from the machine 9. -/
def spoiled : Bridge Unit :=
  (Operation.afterAll 40 forgetful [.feedMessage ⟨0⟩ 9 [0x6e, 0x6f], .step ⟨0⟩]).get
    (by decide +kernel)

/-- The bridge is reachable. -/
theorem reachable_forgetful : forgetful.Reachable :=
  (Reachable.new 1 0 {} ()).afterAll (Option.some_get _).symm

/-- So is the bridge after the next message. -/
theorem reachable_spoiled : spoiled.Reachable :=
  reachable_forgetful.afterAll (Option.some_get _).symm

/-- A step in which the script hears the second message ends in readiness, and the first one is
released, which only the table had. If the script fails in this step the first one is left, and
collecting takes it alone: the second is in the table, and the frame that has failed has the
third. -/
theorem collection_exact_forgetful :
    (∃ i b' i', forgetful.find ⟨0⟩ = .ok i ∧
      (∃ id, i.machine.store.strings.lookup [0x68, 0x69] = some id) ∧
      forgetful.step 40 ⟨0⟩ = some (.ok (.ready, b')) ∧ b'.find ⟨0⟩ = .ok i' ∧
      i'.machine.store.strings.lookup [0x68, 0x69] = none ∧
      (∃ id, i'.machine.store.strings.lookup [0x79, 0x6f] = some id) ∧
      ∀ id, i'.machine.store.strings.Holds id ↔ i'.machine.Needs id) ∧
    ∃ i, spoiled.find ⟨0⟩ = .ok i ∧ i.machine.isReady = false ∧
      i.machine.store.strings.size = 14 ∧ i.machine.collectStrings.2 = 1 ∧
      i.machine.CollectsExactly ∧
      ∀ id, i.machine.Needs id → i.machine.store.strings.Holds id := by
  constructor
  · have hfound : (forgetful.find ⟨0⟩).toOption.any (fun i =>
        (i.machine.store.strings.lookup [0x68, 0x69]).isSome) = true := by decide +kernel
    have hstepped : (forgetful.step 40 ⟨0⟩).any (fun answer => answer.toOption.any fun ended =>
        decide (ended.1 = .ready) && (ended.2.find ⟨0⟩).toOption.any fun i' =>
          (i'.machine.store.strings.lookup [0x68, 0x69]).isNone &&
            (i'.machine.store.strings.lookup [0x79, 0x6f]).isSome) = true := by decide +kernel
    obtain ⟨i, hi, hbefore⟩ := exists_of_any_toOption hfound
    obtain ⟨answer, hanswer, hended⟩ := (Option.any_eq_true _ _).mp hstepped
    obtain ⟨⟨outcome, b'⟩, rfl, hended⟩ := exists_of_any_toOption hended
    obtain ⟨houtcome, hended⟩ := (Bool.and_eq_true _ _).mp hended
    obtain ⟨i', hi', hafter⟩ := exists_of_any_toOption hended
    obtain ⟨hreleased, hkept⟩ := (Bool.and_eq_true _ _).mp hafter
    obtain rfl : outcome = .ready := of_decide_eq_true houtcome
    exact ⟨i, b', i', hi, Option.isSome_iff_exists.mp hbefore, hanswer, hi',
      Option.isNone_iff_eq_none.mp hreleased, Option.isSome_iff_exists.mp hkept,
      (Reachable.collection_exact reachable_forgetful).2.2.2 40 ⟨0⟩ b' i' hanswer hi'⟩
  · have hfound : (spoiled.find ⟨0⟩).toOption.any (fun i => !i.machine.isReady &&
        (decide (i.machine.store.strings.size = 14) && decide (i.machine.collectStrings.2 = 1))) =
        true := by decide +kernel
    obtain ⟨i, hi, hchecks⟩ := exists_of_any_toOption hfound
    obtain ⟨hstopped, hchecks⟩ := (Bool.and_eq_true _ _).mp hchecks
    obtain ⟨hsize, hcount⟩ := (Bool.and_eq_true _ _).mp hchecks
    obtain ⟨hexact, hholds⟩ :=
      (Reachable.collection_exact reachable_spoiled).1 i (mem_of_find hi)
    exact ⟨i, hi, by simpa using hstopped, of_decide_eq_true hsize, of_decide_eq_true hcount,
      hexact, hholds⟩

end Bridge

end Swarm
