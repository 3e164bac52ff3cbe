import Swarm.Proofs.History
import Swarm.Proofs.SoundNatives

/-!
# Machines stay sound all their lives

A machine is sound when it has been loaded. Every move in its life keeps it sound
and keeps the strings and the values that it trusts; releasing strings keeps it
sound because it releases only strings that nothing reaches. So every machine of a
reachable bridge and every execution under way is sound.
-/

namespace Swarm

namespace StringTable

/-- The strings have got ids in their order, and the table stores them there. -/
def Lists (t : StringTable) (strings : List Bytes) (ids : Array StringId) : Prop :=
  ids.size = strings.length ∧ ∀ (k : Nat) (value : Bytes), strings[k]? = some value →
    ∃ id, ids[k]? = some id ∧ t.Stores id value

/-- Interning one more string. -/
theorem Lists.intern {t : StringTable} {strings : List Bytes} {ids : Array StringId}
    (ht : t.Consistent) (h : t.Lists strings ids) (value : Bytes) :
    (t.intern value).1.Lists (strings ++ [value]) (ids.push (t.intern value).2) := by
  obtain ⟨hsize, hstores⟩ := h
  refine ⟨by simp [hsize], fun k other hk => ?_⟩
  by_cases hlt : k < strings.length
  · rw [List.getElem?_append_left hlt] at hk
    obtain ⟨id, hid, hother⟩ := hstores k other hk
    refine ⟨id, ?_, ht.stores_of_intern value hother⟩
    rw [Array.getElem?_push_lt (by omega), ← hid, Array.getElem?_eq_getElem (by omega)]
  · rw [List.getElem?_append_right (by omega)] at hk
    have hzero : k - strings.length = 0 := by
      have hbound := List.getElem?_eq_some_iff.mp hk
      simpa using hbound.1
    rw [hzero] at hk
    cases hk
    have hlast : k = ids.size := by omega
    exact ⟨_, by rw [hlast]; exact Array.getElem?_push_size, ht.stores_intern value⟩

/-- Interning a list of strings one after the other. -/
theorem lists_foldl (strings : List Bytes) {done : List Bytes} {t : StringTable}
    {ids : Array StringId} (ht : t.Consistent) (h : t.Lists done ids) :
    let r := strings.foldl (fun (t, ids) string =>
      let (t, id) := t.intern string
      (t, ids.push id)) (t, ids)
    r.1.Consistent ∧ r.1.Lists (done ++ strings) r.2 := by
  induction strings generalizing done t ids with
  | nil => exact ⟨ht, by simpa using h⟩
  | cons string rest ih =>
    have hrest := ih (ht.intern string) (h.intern ht string)
    simpa using hrest

/-- The strings of a program are listed in their order. -/
theorem lists_internAll (strings : Array Bytes) :
    (internAll {} strings).1.Consistent ∧
      (internAll {} strings).1.Lists strings.toList (internAll {} strings).2 := by
  have hempty : Lists {} [] #[] := ⟨rfl, fun k value hk => by simp at hk⟩
  have h := lists_foldl strings.toList consistent_empty hempty
  unfold internAll
  rw [← Array.foldl_toList]
  exact h

end StringTable

namespace Store

variable {ν : Type} {code : Code}

/-- The store with an empty table instead of its own tables; it shows the neighbors. -/
def withTable (s : Store ν) : Store ν := { s with heap := ⟨#[{}]⟩, neighborsTable := ⟨0⟩ }

/-- A store with nothing but strings and a table is sound. -/
theorem sound_withTable {strings : StringTable} (h : strings.Consistent) :
    ({ strings } : Store ν).withTable.Sound code where
  consistent := h
  named id hid := by simp [withTable] at hid
  globals id v hv := by simp [withTable] at hv
  listener v hv := by cases hv
  neighbors := Heap.confines_of_empty rfl Nat.zero_lt_one

/-- In a store without tables the first table could have been there from the start. -/
theorem resetNeighbors_eq {s : Store ν} (hheap : s.heap = {}) (hneighbors : s.neighbors = []) :
    s.resetNeighbors = s.withTable.setGlobal (Utf8.encode "neighbors") (.table ⟨0⟩) := by
  obtain ⟨strings, heap, globals, natives, listener, neighbors, neighborsTable, mailbox⟩ := s
  cases hheap
  cases hneighbors
  rfl

/-- Defining functions does not depend on the tables. -/
theorem foldl_install (toNative : Builtin → ν) (builtins : List Builtin) (s : Store ν) :
    (builtins.foldl (Builtin.install toNative) s).heap = s.heap ∧
      (builtins.foldl (Builtin.install toNative) s).neighbors = s.neighbors ∧
      (builtins.foldl (Builtin.install toNative) s).withTable =
        builtins.foldl (Builtin.install toNative) s.withTable := by
  induction builtins generalizing s with
  | nil => exact ⟨rfl, rfl, rfl⟩
  | cons b rest ih => exact ih (Builtin.install toNative s b)

/-- Installing `print` keeps a store sound. -/
theorem Sound.installPrint {s : Store Native} (hs : s.Sound code) :
    Evolves code s s.installPrint := by
  obtain ⟨hregister, hvalue⟩ := hs.register "print" .print
  have hprint := hregister.sound.setGlobal (Utf8.encode "print") hvalue
  have hlog := hprint.sound.setGlobal (Utf8.encode "log") (hprint.grows.trusts _ hvalue)
  have htrue := hlog.sound.setGlobal (Utf8.encode "True") (trusts_int 1)
  have hfalse := htrue.sound.setGlobal (Utf8.encode "False") (trusts_int 0)
  exact hregister.trans (hprint.trans (hlog.trans (htrue.trans hfalse)))

/-- Installing native functions keeps a store sound. -/
theorem Sound.installBuiltins {s : Store ν} (hs : s.Sound code) (toNative : Builtin → ν)
    (builtins : List Builtin) : Evolves code s (builtins.foldl (Builtin.install toNative) s) := by
  induction builtins generalizing s with
  | nil => exact hs.evolves
  | cons b rest ih =>
    have hinstall := hs.define b.name (toNative b)
    exact hinstall.trans (ih hinstall.sound)

/-- Whatever the host does to a sound store. -/
theorem Sound.hostChange {s s' : Store Native} (hs : s.Sound code) (h : s.HostChange s') :
    Evolves code s s' := by
  cases h with
  | resetNeighbors => exact hs.resetNeighbors
  | addNeighbor n => exact hs.addNeighbor n
  | setPosition p =>
    obtain ⟨hpoint, hvalue⟩ := hs.newPoint p
    exact hpoint.trans (hpoint.sound.setGlobal _ hvalue)
  | receive message => exact hs.setMailbox _
  | takeOutbound => exact hs.setMailbox _
  | define name native => exact hs.define name native

/-- Taking messages until one is heard; the function that hears it and its arguments are
trusted. -/
theorem Sound.nextDelivery {σ : Type} {s s' : Store ν} (hs : s.Sound code) {contextId : UInt16}
    {w w' : World σ} {delivery : Option (Value × List Value)}
    (h : s.nextDelivery contextId w = (delivery, s', w')) :
    Evolves code s s' ∧ ∀ listener arguments, delivery = some (listener, arguments) →
      s'.Trusts code listener ∧ ∀ v ∈ arguments, s'.Trusts code v := by
  fun_induction Store.nextDelivery contextId s w with
  | case1 s w =>
    cases h
    exact ⟨hs.evolves, fun _ _ heq => nomatch heq⟩
  | case2 s w message mailbox htake t hlistener ih =>
    have htake := hs.setMailbox mailbox
    obtain ⟨hevolves, hdelivery⟩ := ih htake.sound h
    exact ⟨htake.trans hevolves, hdelivery⟩
  | case3 s w message mailbox htake t listener hlistener _ _ hpresent =>
    have htake := hs.setMailbox mailbox
    obtain ⟨hintern, hpayload⟩ := htake.sound.intern message.payload
    cases h
    rw [hpresent] at hintern hpayload
    refine ⟨htake.trans hintern, fun _ _ heq => ?_⟩
    cases heq
    refine ⟨hintern.grows.trusts _ (htake.sound.listener _ hlistener), fun v hv => ?_⟩
    rcases List.mem_cons.mp hv with rfl | hv
    · exact trusts_int _
    · rw [List.mem_singleton.mp hv]
      exact hpayload

end Store

namespace Machine

/-- A machine that has not begun to run is sound if its store is sound and has the strings of the
program. -/
theorem sound_of_store {program : Program} {programStrings : Array StringId} {store : Store Native}
    (limits : Limits) (contextId : UInt16) (hsize : program.code.size < UInt32.size)
    (hlists : store.strings.Lists program.strings.toList programStrings)
    (hstore : store.Sound program.code) :
    ({ contextId, limits, program, programStrings, store } : Machine Native).Sound where
  addressable := Nat.le_of_lt hsize
  size_programStrings := by simpa using hlists.1
  programStrings k value hk := hlists.2 k value (by simpa using hk)
  store := hstore
  stack v hv := by cases Array.not_mem_empty v hv
  locals f hf := by cases Array.not_mem_empty f hf
  returnPc f hf := by cases Array.not_mem_empty f hf
  pc := program.isStart_zero.isBoundary
  fault f hf := by cases hf

/-- A machine is sound when it has been loaded. -/
theorem sound_loaded {image : Bytes} {program : Program} (h : Program.ofBytes image = .ok program)
    (limits : Limits) (contextId : UInt16) : (loaded program limits contextId).Sound := by
  obtain ⟨hconsistent, hsize, hlists⟩ := StringTable.lists_internAll program.strings
  unfold loaded
  rw [new_eq]
  generalize StringTable.internAll {} program.strings = interned at *
  obtain ⟨strings, programStrings⟩ := interned
  dsimp only at hconsistent hsize hlists ⊢
  -- The neighbors are shown last, but their table could have been there from the start.
  let start : Store Native := ({ strings } : Store Native).setGlobal (Utf8.encode "id")
    (.int (Int64.ofNat contextId.toNat))
  have hstart : start.withTable = ({ strings } : Store Native).withTable.setGlobal
      (Utf8.encode "id") (.int (Int64.ofNat contextId.toNat)) := rfl
  obtain ⟨hheap, hneighbors, hinstall⟩ := Store.foldl_install .builtin Builtin.all start
  have htable : ({ strings } : Store Native).withTable.Sound program.code :=
    Store.sound_withTable hconsistent
  have hid := htable.setGlobal (Utf8.encode "id") (Store.trusts_int (Int64.ofNat contextId.toNat))
  have hbuiltins := hid.sound.installBuiltins .builtin Builtin.all
  have hshown := hbuiltins.sound.setGlobal (Utf8.encode "neighbors")
    (hbuiltins.grows.trusts _ (hid.grows.trusts _ htable.neighbors))
  have hprint := hshown.sound.installPrint
  have hgrows := (hid.trans (hbuiltins.trans (hshown.trans hprint))).grows
  rw [Store.resetNeighbors_eq hheap hneighbors, hinstall, hstart]
  refine sound_of_store limits contextId (Program.size_lt_of_ofBytes h) ⟨hsize, ?_⟩ hprint.sound
  intro k value hk
  obtain ⟨id, hid, hstores⟩ := hlists k value hk
  exact ⟨id, hid, hgrows.stores id value hstores⟩

/-- Taking messages from a sound machine until one is heard. -/
theorem Sound.nextDelivery {ν σ : Type} {m m' : Machine ν} (hm : m.Sound) {w w' : World σ}
    {delivery : Option (Value × List Value)} (h : m.nextDelivery w = (delivery, m', w')) :
    m.Evolves m' ∧ ∀ listener arguments, delivery = some (listener, arguments) →
      m'.Trusts listener ∧ ∀ v ∈ arguments, m'.Trusts v := by
  unfold Machine.nextDelivery at h
  cases hstore : m.store.nextDelivery m.contextId w with
  | mk taken rest =>
    rw [hstore] at h
    cases h
    obtain ⟨hevolves, hdelivery⟩ := hm.store.nextDelivery hstore
    exact ⟨hm.withStore hevolves, hdelivery⟩

/-- The roots of a sound machine are trusted. -/
theorem Sound.trusts_roots {ν : Type} {m : Machine ν} (hm : m.Sound) {v : Value}
    (hv : v ∈ m.roots) : m.Trusts v := by
  simp only [roots, values_eq_map_snd, List.mem_append, List.mem_map, Array.mem_toList_iff,
    List.mem_flatMap, Option.mem_toList, List.mem_singleton] at hv
  rcases hv with (((⟨row, hrow, rfl⟩ | hv) | ⟨f, hf, hv⟩) | hv) | rfl
  · exact hm.store.globals _ _ (Std.TreeMap.mem_toList_iff_getElem?_eq_some.mp hrow)
  · exact hm.stack v hv
  · exact hm.locals f hf v hv
  · exact hm.store.listener v hv
  · exact hm.store.neighbors

/-- Every string that a sound machine needs is in its string table. -/
theorem Sound.holds_of_needs {ν : Type} {m : Machine ν} (hm : m.Sound) {id : StringId}
    (h : m.Needs id) : m.store.strings.Holds id := by
  rcases h with h | h | ⟨v, hv, hid⟩
  · exact hm.holds_programStrings id h
  · exact hm.store.named id h
  · exact hm.trusts_roots hv _ hid

/-- A string is in the table after a release if it was there and is needed. -/
theorem stores_released_iff {m : Machine Native} (hm : m.store.strings.Consistent)
    {id : StringId} {value : Bytes} :
    m.released.store.strings.Stores id value ↔ m.store.strings.Stores id value ∧ m.Needs id := by
  rw [← m.contains_liveStrings_iff]
  exact hm.stores_retain_iff _

/-- The strings of the program are stored under their ids, and every variable has a name. -/
structure Interned {ν : Type} (m : Machine ν) : Prop where
  consistent : m.store.strings.Consistent
  named : ∀ id ∈ m.store.globals, m.store.strings.Holds id
  programStrings : ∀ (k : Nat) (value : Bytes), m.program.strings[k]? = some value →
    ∃ id, m.programStrings[k]? = some id ∧ m.store.strings.Stores id value

/-- The globals of a sound machine have interned names. -/
theorem Sound.interned {ν : Type} {m : Machine ν} (hm : m.Sound) : m.Interned :=
  ⟨hm.store.consistent, hm.store.named, hm.programStrings⟩

/-- Releasing strings keeps a machine interned: it needs the strings of its program and the names
of its variables. -/
theorem Interned.released {m : Machine Native} (hm : m.Interned) : m.released.Interned where
  consistent := hm.consistent.retain _
  named id hid := (hm.named id hid).imp fun _ hvalue =>
    (stores_released_iff hm.consistent).mpr ⟨hvalue, .inr (.inl hid)⟩
  programStrings k value hk := (hm.programStrings k value hk).imp fun _ ⟨hid, hvalue⟩ =>
    ⟨hid, (stores_released_iff hm.consistent).mpr ⟨hvalue, .inl (Array.mem_of_getElem? hid)⟩⟩

/-- Releasing strings keeps a machine sound: what its roots reach is needed. -/
theorem Sound.released {m : Machine Native} (hm : m.Sound) : m.released.Sound := by
  have hinterned := hm.interned.released
  have hholds {id : StringId} (hid : m.Needs id) : m.released.store.strings.Holds id :=
    (hm.holds_of_needs hid).imp fun _ hvalue =>
      (stores_released_iff hm.store.consistent).mpr ⟨hvalue, hid⟩
  have htrusts {v : Value} (hv : m.Trusts v)
      (hneeds : ∀ id, m.store.heap.Reaches v (.str id) → m.Needs id) : m.released.Trusts v := by
    intro w hw
    have hresolves := hv w hw
    match w with
    | .str id => exact hholds (hneeds id hw)
    | .closure (.script _) | .closure (.native _) | .table _ => exact hresolves
    | .nil | .int _ | .float _ => trivial
  exact
    { addressable := hm.addressable
      size_programStrings := hm.size_programStrings
      programStrings := hinterned.programStrings
      store :=
        { consistent := hinterned.consistent
          named := hinterned.named
          globals := fun id v hv =>
            htrusts (hm.store.globals id v hv) fun _ h => needs_of_global hv h
          listener := fun v hv =>
            htrusts (hm.store.listener v hv) fun _ h => needs_of_listener hv h
          neighbors := htrusts hm.store.neighbors fun _ h => needs_of_neighbors h }
      stack := fun v hv => htrusts (hm.stack v hv) fun _ h => needs_of_stack hv h
      locals := fun f hf v hv => htrusts (hm.locals f hf v hv) fun _ h => needs_of_local hf hv h
      returnPc := hm.returnPc
      pc := hm.pc
      fault := hm.fault }

end Machine

namespace Stage

variable {σ : Type} {s s' : Stage σ}

/-- The machine is sound, and so is the execution in whose middle it is. -/
def Sound : Stage σ → Prop
  | .idle m => m.Sound
  | .busy e => e.Sound Traversal.held

/-- Every move keeps the machine sound, and it keeps what the machine trusts. -/
theorem Sound.next (hs : s.Sound) (h : s.Next s') : s'.Sound ∧ s.machine.Grows s'.machine := by
  have hbusy {m : Machine Native} {e : Execution Native Traversal σ}
      (he : e.SoundFrom Traversal.held m) : Stage.Sound (.busy e) ∧ m.Grows e.machine :=
    ⟨he.sound, he.machine.grows⟩
  have hwaiting (m : Machine Native) : ∀ s ∈ ([] : List (Suspended Traversal)),
      ∀ v ∈ s.rest.held, m.Trusts v := fun s hs => by cases hs
  cases h with
  | change hchange =>
    have hevolves := Machine.Sound.withStore hs (hs.store.hostChange hchange)
    exact ⟨hevolves.sound, hevolves.grows⟩
  | drop hnext =>
    obtain ⟨hevolves, _⟩ := Machine.Sound.nextDelivery hs hnext
    exact ⟨hevolves.sound, hevolves.grows⟩
  | hear hnext =>
    obtain ⟨hevolves, hdelivery⟩ := Machine.Sound.nextDelivery hs hnext
    obtain ⟨hlistener, harguments⟩ := hdelivery _ _ rfl
    exact hbusy ((Execution.soundFrom_startCall hevolves.sound (hwaiting _) hlistener
      harguments).of_evolves hevolves)
  | body m w => exact hbusy (Execution.soundFrom_startScript hs (hwaiting m))
  | call m w name =>
    refine hbusy (Execution.soundFrom_startCall hs (hwaiting m) ?_ fun v hv => by cases hv)
    unfold Store.global
    split
    · exact Store.trusts_nil
    · exact hs.trusts_global _
  | step hooks e => exact hbusy (Execution.Sound.step (Native.sound_system hooks) hs)
  | leave m w activation result => exact ⟨Execution.SoundFrom.machine hs |>.sound, .refl⟩

/-- Moves lead from sound stages to sound stages. -/
theorem Sound.leads (hs : s.Sound) (h : s.Leads s') : s'.Sound ∧ s.machine.Grows s'.machine := by
  induction h with
  | refl => exact ⟨hs, .refl⟩
  | tail _ hnext ih =>
    obtain ⟨hsound, hgrows⟩ := ih.1.next hnext
    exact ⟨hsound, ih.2.trans hgrows⟩

/-- Whatever a machine comes to, it is sound. -/
theorem Reached.sound (h : s.Reached) : s.Sound := by
  induction h with
  | load himage limits contextId => exact Machine.sound_loaded himage limits contextId
  | next _ hnext ih => exact (ih.next hnext).1
  | release _ ih => exact Machine.Sound.released ih

end Stage

/-- The values around a machine at work: its roots, what native functions hold while they wait, and
the result on its way to one of them. -/
def Execution.values {σ : Type} (e : Execution Native Traversal σ) : List Value :=
  e.machine.roots ++ e.waiting.flatMap (fun s => s.rest.held) ++
    match e.phase with
    | .leaving (.ok v) => [v]
    | _ => []

/-- The values around a sound execution are trusted. -/
theorem Execution.Sound.trusts_values {σ : Type} {e : Execution Native Traversal σ}
    (he : e.Sound Traversal.held) {v : Value} (hv : v ∈ e.values) : e.machine.Trusts v := by
  unfold values at hv
  rcases List.mem_append.mp hv with hv | hv
  · rcases List.mem_append.mp hv with hv | hv
    · exact he.machine.sound.trusts_roots hv
    · obtain ⟨s, hs, hv⟩ := List.mem_flatMap.mp hv
      exact he.waiting s hs v hv
  · have hphase := he.phase
    split at hv
    · rename_i u hleaving
      rw [hleaving] at hphase
      rw [List.mem_singleton.mp hv]
      exact hphase
    · cases hv

/-- Every machine of a reachable bridge is sound. -/
theorem Bridge.Reachable.sound {σ : Type} {b : Bridge σ} (h : b.Reachable) {i : Instance}
    (hi : i ∈ b.instances) : i.machine.Sound :=
  (h.reached hi).sound

/-- Every execution under way on a reachable bridge is sound. -/
theorem Bridge.Reachable.sound_underway {σ : Type} {b : Bridge σ} (h : b.Reachable)
    {e : Execution Native Traversal σ} (he : b.Underway e) : e.Sound Traversal.held :=
  (h.reached_underway he).sound

end Swarm
