import Swarm.Proofs.Listing
import Swarm.Proofs.Reachability
import Swarm.Proofs.Strings

/-!
# Sound stores

A value resolves in a store if everything that it refers to exists: the start of
an instruction, a native function, a string, a table. A store is sound if only
such values can be reached from its roots. Whatever the interpreter, native
functions or the host do to a sound store, it stays sound and goes on trusting
every value that it trusted before.
-/

namespace Swarm

namespace Store

variable {ν : Type} {code : Code} {s s' s'' : Store ν}

/-- What a value refers to exists. -/
def Resolves (code : Code) (s : Store ν) : Value → Prop
  | .closure (.script address) => code.IsStart address.toNat
  | .closure (.native id) => id < s.natives.size
  | .str id => s.strings.Holds id
  | .table id => id.index < s.heap.tables.size
  | .nil | .int _ | .float _ => True

/-- Everything that can be reached from a value exists. -/
def Trusts (code : Code) (s : Store ν) (v : Value) : Prop := s.heap.Confines (s.Resolves code) v

/-- The string table is consistent and everything that can be reached from the roots of the store
exists. -/
structure Sound (code : Code) (s : Store ν) : Prop where
  consistent : s.strings.Consistent
  named : ∀ id ∈ s.globals, s.strings.Holds id
  globals : ∀ (id : StringId) (v : Value), s.globals[id]? = some v → s.Trusts code v
  listener : ∀ v, s.listener = some v → s.Trusts code v
  neighbors : s.Trusts code (.table s.neighborsTable)

/-- The later store trusts all values that the earlier one trusts, and it has all strings of the
earlier one under the same ids. -/
structure Grows (code : Code) (s s' : Store ν) : Prop where
  trusts : ∀ v, s.Trusts code v → s'.Trusts code v
  stores : ∀ id value, s.strings.Stores id value → s'.strings.Stores id value

/-- A store grows into itself. -/
theorem Grows.refl : Grows code s s := ⟨fun _ h => h, fun _ _ h => h⟩

/-- Growing twice is growing. -/
theorem Grows.trans (h : Grows code s s') (h' : Grows code s' s'') : Grows code s s'' :=
  ⟨fun v hv => h'.trusts v (h.trusts v hv),
    fun id value hv => h'.stores id value (h.stores id value hv)⟩

/-- A string that is held stays held while the store grows. -/
theorem Grows.holds {id : StringId} (h : Grows code s s') (hid : s.strings.Holds id) :
    s'.strings.Holds id :=
  hid.imp fun _ hvalue => h.stores id _ hvalue

/-- A change that keeps a store sound and grows it. -/
structure Evolves (code : Code) (s s' : Store ν) : Prop where
  sound : s'.Sound code
  grows : Grows code s s'

/-- Evolving twice is evolving. -/
theorem Evolves.trans (h : Evolves code s s') (h' : Evolves code s' s'') : Evolves code s s'' :=
  ⟨h'.sound, h.grows.trans h'.grows⟩

/-- A sound store evolves into itself. -/
theorem Sound.evolves (h : s.Sound code) : Evolves code s s := ⟨h, .refl⟩

/-- Values without references are always trusted. -/
theorem trusts_nil : s.Trusts code .nil := Heap.confines_of_not_table (by simp) trivial

/-- An integer is trusted. -/
theorem trusts_int (n : Int64) : s.Trusts code (.int n) :=
  Heap.confines_of_not_table (by simp) trivial

/-- A float is trusted. -/
theorem trusts_float (x : Float) : s.Trusts code (.float x) :=
  Heap.confines_of_not_table (by simp) trivial

/-- A string that is held is trusted. -/
theorem trusts_str {id : StringId} (h : s.strings.Holds id) : s.Trusts code (.str id) :=
  Heap.confines_of_not_table (by simp) h

/-- A closure that resolves is trusted. -/
theorem trusts_closure {c : Closure} (h : s.Resolves code (.closure c)) :
    s.Trusts code (.closure c) :=
  Heap.confines_of_not_table (by simp) h

/-- Nothing has disappeared, and all tables have the rows that they had. -/
structure Extends (s s' : Store ν) : Prop where
  stores : ∀ id value, s.strings.Stores id value → s'.strings.Stores id value
  natives : s.natives.size ≤ s'.natives.size
  size : s.heap.tables.size ≤ s'.heap.tables.size
  table : ∀ id, s'.heap.table id = s.heap.table id

/-- A value that resolves still does when more has been added. -/
theorem Extends.resolves (h : Extends s s') {v : Value} (hv : s.Resolves code v) :
    s'.Resolves code v := by
  match v with
  | .closure (.script _) => exact hv
  | .closure (.native _) => exact Nat.lt_of_lt_of_le hv h.natives
  | .str id => exact hv.imp fun value hvalue => h.stores id value hvalue
  | .table _ => exact Nat.lt_of_lt_of_le hv h.size
  | .nil | .int _ | .float _ => trivial

/-- A store grows when something is added. -/
theorem Extends.grows (h : Extends s s') : Grows code s s' where
  trusts _ hv := (hv.of_table_eq h.table).mono fun _ => h.resolves
  stores := h.stores

/-- An extension with the same roots stays sound. -/
theorem Sound.extend (hs : s.Sound code) (h : Extends s s') (hconsistent : s'.strings.Consistent)
    (hglobals : s'.globals = s.globals) (hlistener : s'.listener = s.listener)
    (hneighbors : s'.neighborsTable = s.neighborsTable) : Evolves code s s' where
  sound :=
    { consistent := hconsistent
      named := fun id hid => (h.grows : Grows code s s').holds (hs.named id (hglobals ▸ hid))
      globals := fun id v hv => h.grows.trusts v (hs.globals id v (hglobals ▸ hv))
      listener := fun v hv => h.grows.trusts v (hs.listener v (hlistener ▸ hv))
      neighbors := by
        rw [hneighbors]
        exact h.grows.trusts _ hs.neighbors }
  grows := h.grows

/-- Interning keeps a store sound and gives a trusted value. -/
theorem Sound.intern (hs : s.Sound code) (bytes : Bytes) :
    Evolves code s (s.intern bytes).1 ∧ (s.intern bytes).1.Trusts code (s.intern bytes).2 := by
  have hextends : Extends s (s.intern bytes).1 :=
    { stores := fun _ _ h => hs.consistent.stores_of_intern bytes h
      natives := Nat.le_refl _
      size := Nat.le_refl _
      table := fun _ => rfl }
  exact ⟨hs.extend hextends (hs.consistent.intern bytes) rfl rfl rfl,
    trusts_str (hs.consistent.stores_intern bytes).holds⟩

/-- Storing a trusted value under the id of a string keeps a store sound. -/
theorem Sound.insertGlobal (hs : s.Sound code) {id : StringId} {v : Value}
    (hid : s.strings.Holds id) (hv : s.Trusts code v) :
    Evolves code s { s with globals := s.globals.insert id v } where
  sound :=
    { consistent := hs.consistent
      named := fun id' hid' => by
        rcases Std.TreeMap.mem_insert.mp hid' with heq | hid'
        · rwa [← Std.compare_eq_iff_eq.mp heq]
        · exact hs.named id' hid'
      globals := fun id' v' hv' => by
        rw [Std.TreeMap.getElem?_insert] at hv'
        split at hv'
        · cases hv'
          exact hv
        · exact hs.globals id' v' hv'
      listener := hs.listener
      neighbors := hs.neighbors }
  grows := ⟨fun _ h => h, fun _ _ h => h⟩

/-- Giving a global variable a trusted value keeps a store sound. -/
theorem Sound.setGlobal (hs : s.Sound code) (name : Bytes) {v : Value} (hv : s.Trusts code v) :
    Evolves code s (s.setGlobal name v) := by
  have hintern := (hs.intern name).1
  exact hintern.trans (hintern.sound.insertGlobal
    (hs.consistent.stores_intern name).holds (hintern.grows.trusts v hv))

/-- Storing a trusted value in a table under a trusted key keeps a store sound. -/
theorem Sound.putTable (hs : s.Sound code) (id : TableId) {key : TableKey} {v : Value}
    (hkey : s.Trusts code key.toValue) (hv : s.Trusts code v) :
    Evolves code s { s with heap := s.heap.put id key v } := by
  have hsize : (s.heap.put id key v).tables.size = s.heap.tables.size := by simp [Heap.put]
  have hresolves (w : Value) (hw : s.Resolves code w) :
      Store.Resolves code { s with heap := s.heap.put id key v } w := by
    match w with
    | .table other => exact Nat.lt_of_lt_of_eq hw hsize.symm
    | .closure (.script _) | .closure (.native _) | .str _ => exact hw
    | .nil | .int _ | .float _ => trivial
  have htrusts (w : Value) (hw : s.Trusts code w) :
      Store.Trusts code { s with heap := s.heap.put id key v } w :=
    (Heap.Confines.put hkey hv hw).mono hresolves
  exact
    { sound :=
        { consistent := hs.consistent
          named := hs.named
          globals := fun id' v' hv' => htrusts v' (hs.globals id' v' hv')
          listener := fun v' hv' => htrusts v' (hs.listener v' hv')
          neighbors := htrusts _ hs.neighbors }
      grows := ⟨htrusts, fun _ _ h => h⟩ }

/-- A new table keeps a store sound and is trusted. -/
theorem Sound.newTable (hs : s.Sound code) :
    Evolves code s s.newTable.1 ∧ s.newTable.1.Trusts code (.table s.newTable.2) := by
  have hsize : s.newTable.1.heap.tables.size = s.heap.tables.size + 1 :=
    Array.size_push _
  have hextends : Extends s s.newTable.1 :=
    { stores := fun _ _ h => h
      natives := Nat.le_refl _
      size := by omega
      table := s.heap.table_alloc }
  refine ⟨hs.extend hextends hs.consistent rfl rfl rfl, ?_⟩
  refine Heap.confines_of_empty ?_ ?_
  · rw [← s.heap.toList_table_new]
    exact congrArg Table.toList (s.heap.table_alloc _)
  · change s.heap.tables.size < s.newTable.1.heap.tables.size
    omega

/-- Storing a trusted value in a field of a table keeps a store sound. -/
theorem Sound.putField (hs : s.Sound code) (id : TableId) (name : Bytes) {v : Value}
    (hv : s.Trusts code v) : Evolves code s (s.putField id name v) := by
  obtain ⟨hintern, hkey⟩ := hs.intern name
  exact hintern.trans (hintern.sound.putTable id hkey (hintern.grows.trusts v hv))

/-- The table of a point keeps a store sound and is trusted. -/
theorem Sound.newPoint (hs : s.Sound code) (p : Position) :
    Evolves code s (s.newPoint p).1 ∧ (s.newPoint p).1.Trusts code (s.newPoint p).2 := by
  obtain ⟨hnew, htable⟩ := hs.newTable
  have hx := hnew.sound.putField s.newTable.2 (Utf8.encode "x") (trusts_float p.x.toFloat)
  have hy := hx.sound.putField s.newTable.2 (Utf8.encode "y") (trusts_float p.y.toFloat)
  have hz := hy.sound.putField s.newTable.2 (Utf8.encode "z") (trusts_float p.z.toFloat)
  exact ⟨hnew.trans (hx.trans (hy.trans hz)),
    hz.grows.trusts _ (hy.grows.trusts _ (hx.grows.trusts _ htable))⟩

/-- A new native function keeps a store sound, and the value that calls it is trusted. -/
theorem Sound.register (hs : s.Sound code) (name : String) (native : ν) :
    Evolves code s (s.register name native).1 ∧
      (s.register name native).1.Trusts code (s.register name native).2 := by
  have hsize : (s.register name native).1.natives.size = s.natives.size + 1 :=
    Array.size_push _
  have hextends : Extends s (s.register name native).1 :=
    { stores := fun _ _ h => h
      natives := by omega
      size := Nat.le_refl _
      table := fun _ => rfl }
  refine ⟨hs.extend hextends hs.consistent rfl rfl rfl, trusts_closure ?_⟩
  change s.natives.size < (s.register name native).1.natives.size
  omega

/-- Defining a native function keeps a store sound. -/
theorem Sound.define (hs : s.Sound code) (name : String) (native : ν) :
    Evolves code s (s.define name native).1 := by
  obtain ⟨hregister, hvalue⟩ := hs.register name native
  exact hregister.trans (hregister.sound.setGlobal _ hvalue)

/-- A change of what scripts cannot reach keeps a store sound. -/
theorem Sound.setMailbox (hs : s.Sound code) (mailbox : Mailbox) :
    Evolves code s { s with mailbox } :=
  hs.extend ⟨fun _ _ h => h, Nat.le_refl _, Nat.le_refl _, fun _ => rfl⟩ hs.consistent rfl rfl rfl

/-- A trusted listener keeps a store sound. -/
theorem Sound.setListener (hs : s.Sound code) {v : Value} (hv : s.Trusts code v) :
    Evolves code s { s with listener := some v } where
  sound :=
    { consistent := hs.consistent
      named := hs.named
      globals := hs.globals
      listener := fun v' hv' => by
        cases hv'
        exact hv
      neighbors := hs.neighbors }
  grows := ⟨fun _ h => h, fun _ _ h => h⟩

/-- Forgetting the neighbors keeps a store sound. -/
theorem Sound.resetNeighbors (hs : s.Sound code) : Evolves code s s.resetNeighbors := by
  obtain ⟨hnew, htable⟩ := hs.newTable
  have hreset : Evolves code s.newTable.1
      { s.newTable.1 with neighbors := [], neighborsTable := s.newTable.2 } :=
    ⟨⟨hnew.sound.consistent, hnew.sound.named, hnew.sound.globals, hnew.sound.listener, htable⟩,
      ⟨fun _ h => h, fun _ _ h => h⟩⟩
  exact hnew.trans (hreset.trans (hreset.sound.setGlobal _ htable))

/-- Showing an agent keeps a store sound. -/
theorem Sound.addNeighbor (hs : s.Sound code) (n : Neighbor) :
    Evolves code s (s.addNeighbor n) := by
  obtain ⟨hpoint, hvalue⟩ := hs.newPoint n.position
  have hkey : (s.newPoint n.position).1.Trusts code
      (TableKey.int (Int64.ofNat n.id.toNat)).toValue := trusts_int _
  have hput := hpoint.sound.putTable s.neighborsTable hkey hvalue
  exact hpoint.trans (hput.trans
    (hput.sound.extend ⟨fun _ _ h => h, Nat.le_refl _, Nat.le_refl _, fun _ => rfl⟩
      hput.sound.consistent rfl rfl rfl))

end Store

end Swarm
