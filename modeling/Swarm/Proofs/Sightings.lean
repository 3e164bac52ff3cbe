import Swarm.Proofs.Globals
import Swarm.Proofs.Parts

/-!
# What is shown to the host and to the script

A machine keeps the agents that it sees twice: as a list for the host and as a
table for the script. Both are made anew by a reset and follow every sighting
after it. All tables that have been there before the reset are left alone, so a
script may keep what it was shown.
-/

namespace Swarm

/-- An agent as the host has seen it. -/
structure Sighting where
  id : Int
  position : Position

/-- The neighbor that a script is shown. -/
def Sighting.neighbor (g : Sighting) : Neighbor := ⟨contextIdOf g.id, g.position⟩

/-- A context id is what is left of an id modulo 2^16. -/
theorem toNat_contextIdOf (id : Int) : ((contextIdOf id).toNat : Int) = id % 65536 := by
  have hnonneg : 0 ≤ id % 65536 := Int.emod_nonneg _ (by decide)
  have hlt : id % 65536 < 65536 := Int.emod_lt_of_pos _ (by decide)
  unfold contextIdOf
  rw [UInt16.toNat_ofNat_of_lt' (by change (id % 65536).toNat < 65536; omega)]
  exact Int.toNat_of_nonneg hnonneg

/-- One more element comes last, unless it has been there. -/
theorem eraseDups_concat (as : List Int) (a : Int) :
    (as ++ [a]).eraseDups = if a ∈ as then as.eraseDups else as.eraseDups ++ [a] := by
  rw [List.eraseDups_append]
  by_cases hmem : a ∈ as
  · simp [List.removeAll, hmem]
  · simp [List.removeAll, hmem, List.eraseDups_cons]

namespace Neighbor

variable {n m : Neighbor} {ns : List Neighbor}

/-- The id as the host has it. -/
def residue (n : Neighbor) : Int := n.id.toNat

/-- The key of a neighbor in the table of the script. -/
def key (n : Neighbor) : TableKey := .int (Int64.ofNat n.id.toNat)

/-- Neighbors with the same residue have the same id. -/
theorem residue_injective (h : n.residue = m.residue) : n.id = m.id :=
  UInt16.toNat_inj.mp (Int.ofNat.inj h)

/-- Neighbors with the same key have the same id. -/
theorem key_injective (h : n.key = m.key) : n.id = m.id := by
  have hword : Int64.ofNat n.id.toNat = Int64.ofNat m.id.toNat := TableKey.int.inj h
  have hn := n.id.toNat_lt
  have hm := m.id.toNat_lt
  have heq := congrArg Int64.toInt hword
  rw [Int64.toInt_ofNat_of_lt (by omega), Int64.toInt_ofNat_of_lt (by omega)] at heq
  exact UInt16.toNat_inj.mp (Int.ofNat.inj heq)

/-- A neighbor that is not there yet comes last. -/
theorem map_residue_insert (n : Neighbor) (ns : List Neighbor) :
    (n.insert ns).map residue =
      if n.residue ∈ ns.map residue then ns.map residue else ns.map residue ++ [n.residue] := by
  induction ns with
  | nil => rfl
  | cons m ns ih =>
    unfold insert
    by_cases hid : m.id = n.id
    · have hresidue : n.residue = m.residue := by simp [residue, hid]
      simp [hid, hresidue]
    · have hresidue : n.residue ≠ m.residue := fun h => hid (residue_injective h).symm
      rw [if_neg hid, List.map_cons, ih]
      by_cases hmem : n.residue ∈ ns.map residue
      · simp [hmem]
      · simp [hmem, hresidue]

/-- Where no id is there twice, adding a neighbor takes the place of the one with its id. -/
theorem mem_insert_iff (hns : (ns.map residue).Nodup) :
    m ∈ n.insert ns ↔ m = n ∨ (m ∈ ns ∧ m.id ≠ n.id) := by
  induction ns with
  | nil => simp [insert]
  | cons first ns ih =>
    obtain ⟨hfirst, hrest⟩ := List.nodup_cons.mp hns
    unfold insert
    by_cases hid : first.id = n.id
    · have hother (h : m ∈ ns) : m.id ≠ n.id := fun heq =>
        hfirst (List.mem_map.mpr ⟨m, h, by simp [residue, heq, hid]⟩)
      rw [if_pos hid, List.mem_cons, List.mem_cons]
      constructor
      · exact Or.imp_right fun h => ⟨.inr h, hother h⟩
      · rintro (h | ⟨rfl | h, hne⟩)
        · exact .inl h
        · exact absurd hid hne
        · exact .inr h
    · rw [if_neg hid, List.mem_cons, List.mem_cons, ih hrest]
      constructor
      · rintro (rfl | h | ⟨h, hne⟩)
        · exact .inr ⟨.inl rfl, hid⟩
        · exact .inl h
        · exact .inr ⟨.inr h, hne⟩
      · rintro (h | ⟨h | h, hne⟩)
        · exact .inr (.inl h)
        · exact .inl h
        · exact .inr (.inr ⟨h, hne⟩)

end Neighbor

/-- The residue of a sighting is its id modulo 65536. -/
theorem Sighting.residue_neighbor (g : Sighting) : g.neighbor.residue = g.id % 65536 :=
  toNat_contextIdOf g.id

/-- Putting a value that is not nil inserts a row. -/
theorem Table.rows_put {t : Table} {key : TableKey} {value : Value} (hvalue : value.isNil = false) :
    (t.put key value).rows = t.rows.insert key value := by
  unfold put
  simp [hvalue]

namespace Heap

variable {h : Heap} {id other : TableId} {key : TableKey} {value : Value}

/-- Putting into a table is putting into its rows. -/
theorem table_put_self (hid : id.index < h.tables.size) :
    (h.put id key value).table id = (h.table id).put key value := by
  unfold put table
  rw [Array.getElem?_modify, if_pos rfl, Array.getElem?_eq_getElem hid]
  rfl

/-- Putting into a table leaves the others. -/
theorem table_put_ne (hne : other ≠ id) : (h.put id key value).table other = h.table other := by
  have hindex : id.index ≠ other.index := fun heq => hne (by cases id; cases other; simp_all)
  unfold put table
  rw [Array.getElem?_modify, if_neg hindex]

/-- Putting into a table makes no table. -/
theorem size_put : (h.put id key value).tables.size = h.tables.size := Array.size_modify

/-- A new table is empty. -/
theorem rows_table_new (h : Heap) : (h.alloc.1.table h.alloc.2).rows = {} := by
  simp [table, alloc]

end Heap

namespace Store

variable {ν : Type} {code : Code} {s s' : Store ν} {id other : TableId} {name : Bytes} {v : Value}

/-! ### Fields of tables -/

/-- Only strings and variables matter to what the variables are. -/
theorem global_congr (hstrings : s'.strings = s.strings) (hglobals : s'.globals = s.globals) :
    s'.global = s.global := by
  unfold global
  rw [hstrings, hglobals]

/-- A field that is set takes the place of the one with its name. -/
theorem rows_putField_iff (hid : id.index < s.heap.tables.size) (hv : v.isNil = false)
    {key : TableKey} {value : Value} :
    ((s.putField id name v).heap.table id).rows[key]? = some value ↔
      (key = .str (s.strings.intern name).2 ∧ value = v) ∨
        (key ≠ .str (s.strings.intern name).2 ∧ (s.heap.table id).rows[key]? = some value) := by
  unfold putField
  rw [Heap.table_put_self hid, Table.rows_put hv]
  simp only [Std.TreeMap.getElem?_insert, Std.compare_eq_iff_eq]
  split
  · rename_i heq
    simp [heq, eq_comm]
  · rename_i hne
    simp [Ne.symm hne]

/-- Putting into a field of a table leaves the other tables. -/
theorem table_putField_ne (hne : other ≠ id) :
    (s.putField id name v).heap.table other = s.heap.table other :=
  Heap.table_put_ne hne

/-- Putting into a field makes no table. -/
theorem size_putField : (s.putField id name v).heap.tables.size = s.heap.tables.size :=
  Heap.size_put

/-- Putting into a field leaves the globals of a sound store. -/
theorem Sound.global_putField (hs : s.Sound code) (id : TableId) (name : Bytes) (v : Value) :
    (s.putField id name v).global = s.global :=
  (global_intern hs.consistent hs.named name : (s.intern name).1.global = s.global)

/-- The fields of a table are the coordinates of a point, and it has no others. -/
def ShowsPoint (s : Store ν) (id : TableId) (p : Position) : Prop :=
  ∃ x y z : StringId, s.strings.Stores x (Utf8.encode "x") ∧
    s.strings.Stores y (Utf8.encode "y") ∧ s.strings.Stores z (Utf8.encode "z") ∧
      ∀ (key : TableKey) (value : Value), (s.heap.table id).rows[key]? = some value ↔
        (key = .str x ∧ value = .float p.x.toFloat) ∨
          (key = .str y ∧ value = .float p.y.toFloat) ∨
            (key = .str z ∧ value = .float p.z.toFloat)

/-- A table that is not changed goes on showing its point, whatever strings are added. -/
theorem ShowsPoint.of_table_eq {p : Position} (h : s.ShowsPoint id p)
    (hstores : ∀ id value, s.strings.Stores id value → s'.strings.Stores id value)
    (htable : s'.heap.table id = s.heap.table id) : s'.ShowsPoint id p := by
  obtain ⟨x, y, z, hx, hy, hz, hrows⟩ := h
  exact ⟨x, y, z, hstores _ _ hx, hstores _ _ hy, hstores _ _ hz, htable ▸ hrows⟩

/-- What a new point is: a new table with its coordinates, and no other change that a script or the
host could notice. -/
structure AddsPoint (s s' : Store ν) (id : TableId) (p : Position) : Prop where
  new : id.index = s.heap.tables.size
  size : s'.heap.tables.size = s.heap.tables.size + 1
  shows : s'.ShowsPoint id p
  others : ∀ other, other ≠ id → s'.heap.table other = s.heap.table other
  global : s'.global = s.global
  neighbors : s'.neighbors = s.neighbors
  neighborsTable : s'.neighborsTable = s.neighborsTable

/-- A new point is a new table with the two coordinates. -/
theorem Sound.addsPoint (hs : s.Sound code) (p : Position) :
    ∃ id, (s.newPoint p).2 = .table id ∧ s.AddsPoint (s.newPoint p).1 id p := by
  let s₀ := s.newTable.1
  let id := s.newTable.2
  let s₁ := s₀.putField id (Utf8.encode "x") (.float p.x.toFloat)
  let s₂ := s₁.putField id (Utf8.encode "y") (.float p.y.toFloat)
  let s₃ := s₂.putField id (Utf8.encode "z") (.float p.z.toFloat)
  have h₀ : s₀.Sound code := hs.newTable.1.sound
  have h₁ : s₀.Evolves code s₁ := h₀.putField id _ (trusts_float _)
  have h₂ : s₁.Evolves code s₂ := h₁.sound.putField id _ (trusts_float _)
  have h₃ : s₂.Evolves code s₃ := h₂.sound.putField id _ (trusts_float _)
  have hsize : s₀.heap.tables.size = s.heap.tables.size + 1 := Array.size_push _
  have hid₀ : id.index < s₀.heap.tables.size := by
    rw [hsize]
    exact Nat.lt_succ_self _
  have hid₁ : id.index < s₁.heap.tables.size := by rwa [size_putField]
  have hid₂ : id.index < s₂.heap.tables.size := by rwa [size_putField]
  have hx : s₁.strings.Stores (s₀.strings.intern (Utf8.encode "x")).2 (Utf8.encode "x") :=
    h₀.consistent.stores_intern _
  have hy : s₂.strings.Stores (s₁.strings.intern (Utf8.encode "y")).2 (Utf8.encode "y") :=
    h₁.sound.consistent.stores_intern _
  have hz : s₃.strings.Stores (s₂.strings.intern (Utf8.encode "z")).2 (Utf8.encode "z") :=
    h₂.sound.consistent.stores_intern _
  have hx₃ := h₃.grows.stores _ _ (h₂.grows.stores _ _ hx)
  have hy₃ := h₃.grows.stores _ _ hy
  -- Different strings have different ids, so no field takes the place of another one.
  have hdistinct : Utf8.encode "x" ≠ Utf8.encode "y" ∧ Utf8.encode "x" ≠ Utf8.encode "z" ∧
      Utf8.encode "y" ≠ Utf8.encode "z" := by decide +kernel
  have hxy : (s₀.strings.intern (Utf8.encode "x")).2 ≠ (s₁.strings.intern (Utf8.encode "y")).2 :=
    fun heq => hdistinct.1 (hx₃.unique (heq ▸ hy₃))
  have hxz : (s₀.strings.intern (Utf8.encode "x")).2 ≠ (s₂.strings.intern (Utf8.encode "z")).2 :=
    fun heq => hdistinct.2.1 (hx₃.unique (heq ▸ hz))
  have hyz : (s₁.strings.intern (Utf8.encode "y")).2 ≠ (s₂.strings.intern (Utf8.encode "z")).2 :=
    fun heq => hdistinct.2.2 (hy₃.unique (heq ▸ hz))
  refine ⟨id, rfl, rfl, ?_, ⟨_, _, _, hx₃, hy₃, hz, fun key value => ?_⟩, fun other hne => ?_, ?_,
    rfl, rfl⟩
  · change s₃.heap.tables.size = _
    rw [size_putField, size_putField, size_putField, hsize]
  · have hempty : (s₀.heap.table id).rows[key]? = none := by
      rw [show (s₀.heap.table id).rows = {} from s.heap.rows_table_new]
      exact Std.TreeMap.getElem?_emptyc
    change (s₃.heap.table id).rows[key]? = some value ↔ _
    rw [rows_putField_iff hid₂ rfl, rows_putField_iff hid₁ rfl, rows_putField_iff hid₀ rfl, hempty]
    grind
  · change s₃.heap.table other = _
    rw [table_putField_ne hne, table_putField_ne hne, table_putField_ne hne]
    exact s.heap.table_alloc other
  · change s₃.global = _
    rw [h₂.sound.global_putField, h₁.sound.global_putField, h₀.global_putField]
    rfl

/-- What adding a neighbor is: a new row or another value of the row with its key, and in it a new
table with its position. No other table is changed. -/
structure AddsNeighbor (s s' : Store ν) (n : Neighbor) (id : TableId) : Prop where
  new : id.index = s.heap.tables.size
  rows : (s'.heap.table s.neighborsTable).rows =
    (s.heap.table s.neighborsTable).rows.insert n.key (.table id)
  shows : s'.ShowsPoint id n.position
  others : ∀ other : TableId, other.index < s.heap.tables.size → other ≠ s.neighborsTable →
    s'.heap.table other = s.heap.table other
  global : s'.global = s.global
  neighbors : s'.neighbors = n.insert s.neighbors
  neighborsTable : s'.neighborsTable = s.neighborsTable

/-- Adding a neighbor makes its point, notes it in the list and puts it into the table. -/
theorem addNeighbor_eq (s : Store ν) (n : Neighbor) : s.addNeighbor n =
    { (s.newPoint n.position).1 with
      neighbors := n.insert (s.newPoint n.position).1.neighbors
      heap := (s.newPoint n.position).1.heap.put (s.newPoint n.position).1.neighborsTable n.key
        (s.newPoint n.position).2 } := by
  unfold addNeighbor
  generalize s.newPoint n.position = made
  rfl

/-- Adding a neighbor to a sound store adds one row to the table of neighbors. -/
theorem Sound.addsNeighbor (hs : s.Sound code) (n : Neighbor) :
    ∃ id, s.AddsNeighbor (s.addNeighbor n) n id := by
  obtain ⟨id, hvalue, hpoint⟩ := hs.addsPoint n.position
  have htable : s.neighborsTable.index < s.heap.tables.size := hs.neighbors.self
  rw [addNeighbor_eq, hvalue]
  generalize (s.newPoint n.position).1 = s' at hpoint ⊢
  have hsize := hpoint.size
  have hnew := hpoint.new
  have hne : s.neighborsTable ≠ id := by
    rintro heq
    rw [heq] at htable
    omega
  rw [hpoint.neighbors, hpoint.neighborsTable]
  refine ⟨id, hnew, ?_, ?_, fun other hlt hother => ?_, ?_, rfl, hpoint.neighborsTable⟩
  · rw [Heap.table_put_self (by omega), hpoint.others _ hne, Table.rows_put rfl]
  · exact ShowsPoint.of_table_eq hpoint.shows (fun _ _ h => h) (Heap.table_put_ne hne.symm)
  · have hold : other ≠ id := by
      rintro rfl
      omega
    exact (Heap.table_put_ne hother).trans (hpoint.others _ hold)
  · rw [← hpoint.global]
    exact global_congr rfl rfl

/-! ### After a reset -/

/-- Forget all neighbors and show the sightings. -/
def observe (gs : List Sighting) (s : Store ν) : Store ν :=
  gs.foldl (fun s g => s.addNeighbor g.neighbor) s.resetNeighbors

/-- The last sighting is observed after the others. -/
theorem observe_concat (gs : List Sighting) (g : Sighting) (s : Store ν) :
    s.observe (gs ++ [g]) = (s.observe gs).addNeighbor g.neighbor := by
  simp [observe]

/-- A sound store stays sound through sightings. -/
theorem Sound.observe (hs : s.Sound code) (gs : List Sighting) :
    s.Evolves code (s.observe gs) := by
  induction gs using List.reverseRecOn with
  | nil => exact hs.resetNeighbors
  | append_singleton gs g ih =>
    rw [observe_concat]
    exact ih.trans (ih.sound.addNeighbor _)

/-- What the host and the script find in the later store after the sightings. -/
structure Reflects (s s' : Store ν) (gs : List Sighting) : Prop where
  /-- The host finds one neighbor for every id modulo 2^16, in the order of the first sightings. -/
  order : s'.neighbors.map Neighbor.residue = (gs.map fun g => g.id % 65536).eraseDups
  distinct : (s'.neighbors.map Neighbor.residue).Nodup
  /-- Every neighbor is where it was seen last. -/
  latest : ∀ n ∈ s'.neighbors,
    ((gs.filter fun g => g.id % 65536 = n.residue).getLast?.map Sighting.position) =
      some n.position
  /-- The script finds a new table. -/
  table : s'.global (Utf8.encode "neighbors") = .table s'.neighborsTable
  new : s.heap.tables.size ≤ s'.neighborsTable.index
  keys : ∀ key, key ∈ (s'.heap.table s'.neighborsTable).rows ↔ ∃ n ∈ s'.neighbors, key = n.key
  /-- In the new table there are points, which are newer still. -/
  points : ∀ n ∈ s'.neighbors, ∃ id, s'.neighborsTable.index < id.index ∧
    (s'.heap.table s'.neighborsTable).rows[n.key]? = some (.table id) ∧ s'.ShowsPoint id n.position
  /-- All tables that have been there are as they were, the points among them, too. -/
  untouched : ∀ id, id.index < s.heap.tables.size → s'.heap.table id = s.heap.table id

/-- After a reset the list and the table of neighbors are both empty. -/
theorem Sound.reflects_reset (hs : s.Sound code) : s.Reflects s.resetNeighbors [] where
  order := rfl
  distinct := List.nodup_nil
  latest n hn := by cases hn
  table := by
    have hset := global_setGlobal
      (s := { s.newTable.1 with neighbors := [], neighborsTable := s.newTable.2 })
      hs.newTable.1.sound.consistent (Utf8.encode "neighbors") (.table s.newTable.2)
    exact (congrFun hset _).trans (Function.update_self ..)
  new := Nat.le_refl _
  keys key := by
    have hrows : (s.resetNeighbors.heap.table s.resetNeighbors.neighborsTable).rows = {} :=
      s.heap.rows_table_new
    rw [hrows]
    exact iff_of_false Std.TreeMap.not_mem_emptyc fun ⟨_, hn, _⟩ => by cases hn
  points n hn := by cases hn
  untouched id _ := s.heap.table_alloc id

/-- In a sound store the table of the neighbors and the points in it exist. -/
theorem Sound.lt_of_row (hs : s.Sound code) {key : TableKey}
    (hrow : (s.heap.table s.neighborsTable).rows[key]? = some (.table id)) :
    id.index < s.heap.tables.size :=
  (hs.neighbors.value (Table.mem_toList_iff.mpr hrow)).self

section OneMore

variable {s'' : Store ν} {gs : List Sighting} {g : Sighting} {n : Neighbor}

/-- The new neighbor is there, and so are all others that do not have its id. -/
theorem Reflects.mem_neighbors_iff (h : s.Reflects s' gs)
    (hadds : s'.AddsNeighbor s'' g.neighbor id) :
    n ∈ s''.neighbors ↔ n = g.neighbor ∨ (n ∈ s'.neighbors ∧ n.id ≠ g.neighbor.id) := by
  rw [hadds.neighbors, Neighbor.mem_insert_iff h.distinct]

/-- The residues in the list grow by the one sighted, unless it is there already. -/
theorem AddsNeighbor.map_residue (h : s'.AddsNeighbor s'' g.neighbor id) :
    s''.neighbors.map Neighbor.residue =
      if g.id % 65536 ∈ s'.neighbors.map Neighbor.residue then s'.neighbors.map Neighbor.residue
      else s'.neighbors.map Neighbor.residue ++ [g.id % 65536] := by
  rw [h.neighbors, Neighbor.map_residue_insert, g.residue_neighbor]

/-- The new sighting is the last one of its neighbor, and of no other one. -/
theorem Reflects.latest_concat (h : s.Reflects s' gs)
    (hadds : s'.AddsNeighbor s'' g.neighbor id) (hn : n ∈ s''.neighbors) :
    ((gs ++ [g]).filter fun g => g.id % 65536 = n.residue).getLast?.map Sighting.position =
      some n.position := by
  rw [List.filter_append]
  rcases (h.mem_neighbors_iff hadds).mp hn with rfl | ⟨hn, hid⟩
  · rw [List.filter_singleton, g.residue_neighbor, decide_eq_true rfl, cond_true,
      List.getLast?_concat]
    rfl
  · have hother : ¬ g.id % 65536 = n.residue := fun heq =>
      hid (Neighbor.residue_injective (g.residue_neighbor.trans heq)).symm
    simpa [hother] using h.latest n hn

/-- The new row has the key of the new neighbor. -/
theorem Reflects.mem_rows_iff (h : s.Reflects s' gs) (hadds : s'.AddsNeighbor s'' g.neighbor id)
    (key : TableKey) :
    key ∈ (s''.heap.table s'.neighborsTable).rows ↔ ∃ n ∈ s''.neighbors, key = n.key := by
  rw [hadds.rows, Std.TreeMap.mem_insert, Std.compare_eq_iff_eq, h.keys]
  simp only [h.mem_neighbors_iff hadds]
  constructor
  · rintro (rfl | ⟨n, hn, rfl⟩)
    · exact ⟨g.neighbor, .inl rfl, rfl⟩
    · by_cases hid : n.id = g.neighbor.id
      · exact ⟨g.neighbor, .inl rfl, by simp [Neighbor.key, hid]⟩
      · exact ⟨n, .inr ⟨hn, hid⟩, rfl⟩
  · rintro ⟨n, rfl | ⟨hn, hid⟩, rfl⟩
    · exact .inl rfl
    · exact .inr ⟨n, hn, rfl⟩

/-- The points of the other neighbors are not changed. -/
theorem Reflects.exists_point (h : s.Reflects s' gs) (hs : s'.Sound code)
    (hadds : s'.AddsNeighbor s'' g.neighbor id)
    (hstores : ∀ id value, s'.strings.Stores id value → s''.strings.Stores id value)
    (hn : n ∈ s''.neighbors) :
    ∃ point, s'.neighborsTable.index < point.index ∧
      (s''.heap.table s'.neighborsTable).rows[n.key]? = some (.table point) ∧
        s''.ShowsPoint point n.position := by
  have hnew := hadds.new
  have htable : s'.neighborsTable.index < s'.heap.tables.size := hs.neighbors.self
  rw [hadds.rows]
  simp only [Std.TreeMap.getElem?_insert, Std.compare_eq_iff_eq]
  rcases (h.mem_neighbors_iff hadds).mp hn with rfl | ⟨hn, hid⟩
  · exact ⟨id, by omega, if_pos rfl, hadds.shows⟩
  · obtain ⟨point, hnewer, hrow, hshows⟩ := h.points n hn
    have hkey : g.neighbor.key ≠ n.key := fun heq => hid (Neighbor.key_injective heq).symm
    have hkept := hadds.others point (hs.lt_of_row hrow) (by rintro rfl; omega)
    exact ⟨point, hnewer, (if_neg hkey).trans hrow, hshows.of_table_eq hstores hkept⟩

/-- One more sighting is shown to the host and to the script. -/
theorem Reflects.addNeighbor (h : s.Reflects s' gs) (hs : s'.Sound code) (g : Sighting) :
    s.Reflects (s'.addNeighbor g.neighbor) (gs ++ [g]) := by
  obtain ⟨id, hadds⟩ := hs.addsNeighbor g.neighbor
  have hstores := (hs.addNeighbor g.neighbor).grows.stores
  generalize s'.addNeighbor g.neighbor = s'' at hadds hstores ⊢
  have hold := h.new
  have hsame := hadds.neighborsTable
  refine ⟨?_, ?_, fun n => h.latest_concat hadds, ?_, hsame ▸ hold,
    fun key => hsame ▸ h.mem_rows_iff hadds key,
    fun n hn => hsame ▸ h.exists_point hs hadds hstores hn, fun other hother => ?_⟩
  · rw [hadds.map_residue, h.order, List.map_append, List.map_singleton, eraseDups_concat]
    simp only [List.mem_eraseDups]
  · rw [hadds.map_residue]
    split
    · exact h.distinct
    · rename_i hmissing
      exact List.nodup_append.mpr ⟨h.distinct, List.nodup_singleton _, by simp_all⟩
  · rw [hadds.global, hsame, h.table]
  · have htable : s'.neighborsTable.index < s'.heap.tables.size := hs.neighbors.self
    rw [hadds.others other (by omega) (by rintro rfl; omega), h.untouched other hother]

end OneMore

/-- After a reset and any sightings the host and the script find the same. -/
theorem Sound.reflects (hs : s.Sound code) (gs : List Sighting) :
    s.Reflects (s.observe gs) gs := by
  induction gs using List.reverseRecOn with
  | nil => exact hs.reflects_reset
  | append_singleton gs g ih =>
    rw [observe_concat]
    exact ih.addNeighbor (hs.observe gs).sound g

end Store

/-- What a machine finds after sightings in place of what was there before. -/
structure Machine.Observes (m m' : Machine Native) (values : List Value) (gs : List Sighting) :
    Prop where
  reflects : m.store.Reflects m'.store gs
  /-- No table is changed that can be reached from one of the values. -/
  kept : ∀ v ∈ values, ∀ id, m.store.heap.Reaches v (.table id) →
    id.index < m.store.heap.tables.size ∧ m'.store.heap.table id = m.store.heap.table id

/-- A sound machine observes any sightings. -/
theorem Machine.Sound.observes {m : Machine Native} (hm : m.Sound) {values : List Value}
    (hvalues : ∀ v ∈ values, m.Trusts v) (gs : List Sighting) :
    m.Observes (m.mapStore (Store.observe gs)) values gs where
  reflects := hm.store.reflects gs
  kept v hv id hreach := by
    have hlt : id.index < m.store.heap.tables.size := hvalues v hv _ hreach
    exact ⟨hlt, (hm.store.reflects gs).untouched id hlt⟩

namespace Bridge

variable {σ : Type} {b : Bridge σ} {vm : Handle}

/-- Forget the neighbors of a machine and show it the sightings. -/
def observe (b : Bridge σ) (vm : Handle) (gs : List Sighting) : Except BridgeError (Bridge σ) := do
  gs.foldlM (fun b g => b.addNeighbor vm g.id g.position) (← b.resetNeighbors vm)

/-- A bridge observes the last sighting after the others. -/
theorem observe_concat (gs : List Sighting) (g : Sighting) :
    b.observe vm (gs ++ [g]) = b.observe vm gs >>= fun b => b.addNeighbor vm g.id g.position := by
  simp [observe]

/-- Sightings of a loaded machine change its store and nothing else. -/
theorem observe_eq (h : vm.index < b.vmCount) (gs : List Sighting) :
    b.observe vm gs = .ok (b.adjust vm (Store.observe gs)) := by
  induction gs using List.reverseRecOn with
  | nil =>
    unfold observe resetNeighbors
    rw [updateStore_eq h]
    rfl
  | append_singleton gs g ih =>
    have hadd : (b.adjust vm (Store.observe gs)).addNeighbor vm g.id g.position =
        .ok ((b.adjust vm (Store.observe gs)).adjust vm fun s => s.addNeighbor g.neighbor) :=
      updateStore_eq (vmCount_adjust.symm ▸ h)
    rw [adjust_adjust] at hadd
    rw [observe_concat, ih]
    refine hadd.trans ?_
    simp only [← Store.observe_concat]

/-- After a reset and any sightings the host and the script of a loaded machine find the same,
and whatever the script can have kept is as it was; in the middle of an operation, too. -/
theorem Reachable.reflectsSightings (h : b.Reachable) (gs : List Sighting) :
    (∀ vm i, b.find vm = .ok i → ∃ b' i', b.observe vm gs = .ok b' ∧ b'.find vm = .ok i' ∧
      b'.neighbors vm = .ok i'.machine.store.neighbors ∧
        i.machine.Observes i'.machine i.machine.roots gs) ∧
      ∀ e, b.Underway e →
        e.machine.Observes (e.machine.mapStore (Store.observe gs)) e.values gs := by
  constructor
  · intro vm i hfind
    have hm := h.sound (mem_of_find hfind)
    have hadjust : (b.adjust vm (Store.observe gs)).instances = (b.replace vm _).instances :=
      congrArg instances (replace_mapStore hfind).symm
    have hfind' := find_replace hfind hadjust
    refine ⟨_, _, observe_eq (lt_vmCount_of_find hfind) gs, hfind', ?_,
      hm.observes (fun v hv => hm.trusts_roots hv) gs⟩
    unfold neighbors
    rw [hfind']
    rfl
  · intro e he
    have hsound := h.sound_underway he
    exact hsound.machine.sound.observes (fun v hv => hsound.trusts_values hv) gs

/-- An agent is seen twice, the second time under an id that is greater by 2^16. Another one has a
negative id. -/
def sightings : List Sighting := [⟨5, { x := 1 }⟩, ⟨-65529, { y := 1 }⟩, ⟨65541, { x := 2 }⟩]

/-- The first agent keeps its place in the order and is where it was seen last. -/
theorem reflectsSightings_smallest : smallest.Reachable ∧ ∃ i, smallest.find ⟨0⟩ = .ok i ∧
    ∃ b' i', smallest.observe ⟨0⟩ sightings = .ok b' ∧ b'.find ⟨0⟩ = .ok i' ∧
      i'.machine.store.neighbors.map Neighbor.residue = [5, 7] ∧
        (∀ n ∈ i'.machine.store.neighbors, n.residue = 5 → n.position = { x := 2 }) ∧
          i.machine.Observes i'.machine i.machine.roots sightings := by
  refine ⟨reachable_smallest, ?_⟩
  have hloaded : (smallest.find ⟨0⟩).map (fun _ => ()) = .ok () := by decide +kernel
  cases hfind : smallest.find ⟨0⟩ with
  | error e =>
    rw [hfind] at hloaded
    cases hloaded
  | ok i =>
    obtain ⟨b', i', hobserve, hfind', -, hobserves⟩ :=
      (reachable_smallest.reflectsSightings sightings).1 ⟨0⟩ i hfind
    refine ⟨i, rfl, b', i', hobserve, hfind', hobserves.reflects.order, fun n hn hfive => ?_,
      hobserves⟩
    have hlatest := hobserves.reflects.latest n hn
    rw [hfive] at hlatest
    exact (Option.some.inj hlatest).symm

end Bridge

end Swarm
