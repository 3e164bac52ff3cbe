import Swarm.Proofs.SoundLife

/-!
# Global variables by name and by string

Instructions find a global variable by the id that a string of the program got when
the machine was made, the host finds it by its name. A machine is interned if these
ids are still the ids of their strings and every variable has a name. Then it does
not matter who asks: a variable is a matter of its name alone, whatever strings have
been released and whoever has got their slots since.
-/

namespace Swarm

/-- Only nil is nil. -/
theorem Value.eq_nil_of_isNil {v : Value} (h : v.isNil = true) : v = .nil := by
  cases v <;> first | rfl | cases h

namespace Store

variable {ν : Type} {s : Store ν} {id : StringId} {name : Bytes}

/-- A variable is stored under the id of its name. -/
theorem global_of_stores (hs : s.strings.Consistent) (h : s.strings.Stores id name) :
    s.global name = s.globals[id]?.getD .nil := by
  have hlookup := (hs.lookup_iff name id).mpr h
  simp only [global, hlookup]

/-- A variable whose name is stored already is set where it is. -/
theorem setGlobal_of_stores (hs : s.strings.Consistent) (h : s.strings.Stores id name)
    (v : Value) : s.setGlobal name v = { s with globals := s.globals.insert id v } := by
  have hlookup := (hs.lookup_iff name id).mpr h
  simp only [setGlobal, StringTable.intern, hlookup]

/-- Setting a variable changes that one and no other, also if its name takes a slot that another
name has had. -/
theorem global_setGlobal (hs : s.strings.Consistent) (name : Bytes) (v : Value) :
    (s.setGlobal name v).global = Function.update s.global name v := by
  funext other
  have hnew := hs.stores_intern name
  unfold setGlobal global
  rw [s.strings.lookup_intern]
  by_cases hother : other = name
  · simp [hother]
  · rw [if_neg hother, Function.update_of_ne hother]
    cases hlookup : s.strings.lookup other with
    | none => rfl
    | some id =>
      have hstores := hs.stores_of_intern name ((hs.lookup_iff other id).mp hlookup)
      have hne : (s.strings.intern name).2 ≠ id := fun heq =>
        hother (hstores.unique (heq ▸ hnew))
      simp [Std.TreeMap.getElem?_insert, hne]

/-- A function that is defined is the value of the variable of its name. -/
theorem global_define (hs : s.strings.Consistent) (name : String) (native : ν) :
    (s.define name native).1.global =
      Function.update s.global (Utf8.encode name) (.closure (.native s.natives.size)) :=
  global_setGlobal (s := (s.register name native).1) hs (Utf8.encode name) _

/-- A new string does not take the place of a variable. -/
theorem global_intern (hs : s.strings.Consistent) (hnamed : ∀ id ∈ s.globals, s.strings.Holds id)
    (bytes : Bytes) : (s.intern bytes).1.global = s.global := by
  funext name
  unfold intern global
  rw [s.strings.lookup_intern]
  by_cases hname : name = bytes
  · subst hname
    rw [if_pos rfl]
    unfold StringTable.intern
    cases hlookup : s.strings.lookup name with
    | some id => rfl
    | none =>
      -- The slot of the new string was empty, and variables have names.
      have hnone : s.globals[(s.strings.add name).2]? = none :=
        Std.TreeMap.getElem?_eq_none fun hmem => hs.not_holds_add name (hnamed _ hmem)
      simp [hnone]
  · rw [if_neg hname]

end Store

namespace Machine

section

variable {ν : Type} {m : Machine ν}

/-- The operands and the calls in progress do not matter. -/
theorem Interned.withControl (hm : m.Interned) (stack : Array Value) (frames : Array Frame)
    (pc : Nat) : { m with stack, frames, pc }.Interned :=
  ⟨hm.consistent, hm.named, hm.programStrings⟩

/-- The id of a string of the program holds that string. -/
theorem Interned.stores_programString (hm : m.Interned) {k : UInt16} {name : Bytes}
    (hk : m.program.strings[k.toNat]? = some name) :
    m.store.strings.Stores (m.programString k) name := by
  obtain ⟨id, hid, hstores⟩ := hm.programStrings _ _ hk
  simpa [programString, hid] using hstores

/-- Interning a string keeps a machine interned. -/
theorem Interned.intern (hm : m.Interned) (bytes : Bytes) :
    (m.mapStore fun s => (s.intern bytes).1).Interned where
  consistent := hm.consistent.intern bytes
  named id hid := (hm.named id hid).imp fun _ h => hm.consistent.stores_of_intern bytes h
  programStrings k value hk := (hm.programStrings k value hk).imp fun _ ⟨hid, h⟩ =>
    ⟨hid, hm.consistent.stores_of_intern bytes h⟩

/-- Setting a variable keeps a machine interned. -/
theorem Interned.setGlobal (hm : m.Interned) (name : Bytes) (v : Value) :
    (m.mapStore fun s => s.setGlobal name v).Interned where
  consistent := (hm.intern name).consistent
  named id hid := by
    rcases Std.TreeMap.mem_insert.mp hid with heq | hid
    · rw [← Std.compare_eq_iff_eq.mp heq]
      exact (hm.consistent.stores_intern name).holds
    · exact (hm.intern name).named id hid
  programStrings := (hm.intern name).programStrings

/-- Loading the variable that a string of the program names pushes the value. -/
def Reads (m : Machine ν) (k : UInt16) (v : Value) : Prop :=
  execute (.globalLoad k) m = (do push v; return none : Action ν (Option ν)) m

/-- The variables have these values, for the host by their names and for instructions by the
strings. -/
def Shows (m : Machine ν) (strings : Array Bytes) (globals : Bytes → Value) : Prop :=
  ∀ name, m.store.global name = globals name ∧
    ∀ k : UInt16, strings[k.toNat]? = some name → m.Reads k (globals name)

/-- Instructions read the variables that the host reads. -/
theorem Interned.shows (hm : m.Interned) : m.Shows m.program.strings m.store.global := by
  refine fun name => ⟨rfl, fun k hk => ?_⟩
  have hglobal := Store.global_of_stores hm.consistent (hm.stores_programString hk)
  rw [hglobal]
  rfl

/-- An instruction that stores a variable does what the host does to set it. -/
theorem Interned.execute_globalStore (hm : m.Interned) {j : UInt16} {name : Bytes}
    (hj : m.program.strings[j.toNat]? = some name) {rest : Array Value} {v : Value}
    (hstack : m.stack = rest.push v) (hfloor : m.stackFloor ≤ rest.size) :
    execute (.globalStore j) m =
      .ok none ({ m with stack := rest }.mapStore fun s => s.setGlobal name v) := by
  have hpop : pop m = .ok v { m with stack := rest } := by
    have hsize : ¬ m.stack.size ≤ m.stackFloor := by
      rw [hstack, Array.size_push]
      omega
    rw [pop, if_neg hsize, hstack, Array.back?_push, Array.pop_push]
  have hset := Store.setGlobal_of_stores hm.consistent (hm.stores_programString hj) v
  refine (Action.bind_ok hpop).trans ?_
  simp only [mapStore, hset]
  rfl

end

variable {m m' : Machine Native}

/-- Strings have been released and interned, any number of times. -/
inductive Recycles (m : Machine Native) : Machine Native → Prop where
  | refl : m.Recycles m
  | release {m' : Machine Native} (h : m.Recycles m') : m.Recycles m'.released
  | intern {m' : Machine Native} (h : m.Recycles m') (bytes : Bytes) :
      m.Recycles (m'.mapStore fun s => (s.intern bytes).1)

/-- Releasing strings changes no variable. -/
theorem Interned.global_released (hm : m.Interned) :
    m.released.store.global = m.store.global := by
  funext name
  have hlookup : m.released.store.strings.lookup name =
      (m.store.strings.lookup name).filter fun id => m.liveStrings.contains id :=
    hm.consistent.lookup_retain _ name
  have hglobals : m.released.store.globals = m.store.globals := rfl
  unfold Store.global
  rw [hlookup, hglobals]
  cases m.store.strings.lookup name with
  | none => rfl
  | some id =>
    by_cases hlive : m.liveStrings.contains id = true
    · rw [Option.filter_some_pos hlive]
    · have hnone : m.store.globals[id]? = none := Std.TreeMap.getElem?_eq_none fun hmem =>
        hlive ((m.contains_liveStrings_iff id).mpr (.inr (.inl hmem)))
      rw [Option.filter_some_neg (Bool.eq_false_of_not_eq_true hlive)]
      simp [hnone]

/-- However often strings are released and interned, no variable changes. -/
theorem Interned.recycles (hm : m.Interned) (h : m.Recycles m') :
    m'.Interned ∧ m'.program = m.program ∧ m'.store.global = m.store.global := by
  induction h with
  | refl => exact ⟨hm, rfl, rfl⟩
  | release _ ih =>
    obtain ⟨hinterned, hprogram, hglobal⟩ := ih
    exact ⟨hinterned.released, hprogram, hinterned.global_released.trans hglobal⟩
  | intern _ bytes ih =>
    obtain ⟨hinterned, hprogram, hglobal⟩ := ih
    exact ⟨hinterned.intern bytes, hprogram,
      (Store.global_intern hinterned.consistent hinterned.named bytes).trans hglobal⟩

/-- What an interned machine shows, it goes on showing. -/
theorem Interned.shows_recycled (hm : m.Interned) (h : m.Recycles m') :
    m'.Shows m.program.strings m.store.global := by
  obtain ⟨hinterned, hprogram, hglobal⟩ := hm.recycles h
  rw [← hprogram, ← hglobal]
  exact hinterned.shows

/-- The host by name and instructions by the strings of the program read and set the same
variables, and what they set they find again after any recycling of strings. -/
structure NamesGlobals (m : Machine Native) : Prop where
  /-- Reading by a string and reading by its name come to the same. -/
  reads : ∀ m', m.Recycles m' → m'.Shows m.program.strings m.store.global
  /-- What the host sets changes one variable. -/
  sets : ∀ name v m', (m.mapStore fun s => s.setGlobal name v).Recycles m' →
    m'.Shows m.program.strings (Function.update m.store.global name v)
  /-- What an instruction stores changes the one variable that all equal strings name. -/
  stores : ∀ (j : UInt16) name, m.program.strings[j.toNat]? = some name →
    ∀ rest v, m.stack = rest.push v → m.stackFloor ≤ rest.size →
      ∃ m', execute (.globalStore j) m = .ok none m' ∧ m'.stack = rest ∧
        ∀ m'', m'.Recycles m'' →
          m''.Shows m.program.strings (Function.update m.store.global name v)

/-- Interned names make globals the same for the host and for programs. -/
theorem namesGlobals_of_interned (hm : m.Interned) : m.NamesGlobals where
  reads _ := hm.shows_recycled
  sets name v m' h := by
    rw [← Store.global_setGlobal hm.consistent]
    exact (hm.setGlobal name v).shows_recycled h
  stores j name hj rest v hstack hfloor := by
    refine ⟨_, hm.execute_globalStore hj hstack hfloor, rfl, fun m'' h => ?_⟩
    rw [← Store.global_setGlobal hm.consistent]
    exact ((hm.withControl rest m.frames m.pc).setGlobal name v).shows_recycled h

end Machine

/-- On every machine of a reachable bridge, between the operations of the host and in the middle of
one, whatever operands there are and whatever calls are in progress. -/
theorem Bridge.Reachable.namesGlobals {σ : Type} {b : Bridge σ} (h : b.Reachable)
    (stack : Array Value) (frames : Array Frame) (pc : Nat) :
    (∀ i ∈ b.instances, { i.machine with stack, frames, pc }.NamesGlobals) ∧
      ∀ e, b.Underway e → { e.machine with stack, frames, pc }.NamesGlobals := by
  refine ⟨fun i hi => ?_, fun e he => ?_⟩
  · exact Machine.namesGlobals_of_interned ((h.sound hi).interned.withControl stack frames pc)
  · have hm := (h.sound_underway he).machine.sound.interned
    exact Machine.namesGlobals_of_interned (hm.withControl stack frames pc)

/-- A script with the strings `id`, `b` and `id` once more, whose body does nothing, and a
debug-symbol table without entries. -/
def Files.twice : Files := fun path =>
  if path = "script" then .ok [0x48, 0x49, 0x56, 0x45, 1, 3, 0, 2, 0, 0x69, 0x64, 1, 0, 0x62, 2, 0,
    0x69, 0x64, 1, 0, 0, 0, 0]
  else .ok [0x48, 0x44, 0x42, 0x47, 0, 0]

/-- A bridge into which that script has been loaded. -/
def Bridge.twice : Bridge Unit :=
  let b : Bridge Unit := .new 1 0 {} ()
  b.attempt ((b.load Files.twice "script" "symbols" 7).map Prod.fst)

/-- The only variable of the script's strings that has been set is the id of its agent. -/
theorem Bridge.exists_find_twice : ∃ i, twice.find ⟨0⟩ = .ok i ∧
    i.machine.program.strings = #[[0x69, 0x64], [0x62], [0x69, 0x64]] ∧
      i.machine.store.global [0x69, 0x64] = .int 7 ∧ i.machine.store.global [0x62] = .nil := by
  have hfound : (twice.find ⟨0⟩).map (fun i => (i.machine.program.strings,
      (i.machine.store.global [0x69, 0x64]).expectKey, (i.machine.store.global [0x62]).isNil)) =
        .ok (#[[0x69, 0x64], [0x62], [0x69, 0x64]], .ok (.int 7), true) := by
    decide +kernel
  cases hfind : twice.find ⟨0⟩ with
  | error e =>
    rw [hfind] at hfound
    cases hfound
  | ok i =>
    rw [hfind] at hfound
    obtain ⟨hstrings, hglobals⟩ := Prod.mk.inj (Except.ok.inj hfound)
    obtain ⟨hid, hb⟩ := Prod.mk.inj hglobals
    exact ⟨i, rfl, hstrings, Value.eq_of_expectKey hid, Value.eq_nil_of_isNil hb⟩

/-- The first and the third string read what the host has set by the name. What the first one then
sets is read by the third one and by the name, and the second one reads what it did. -/
theorem Bridge.namesGlobals_twice : Bridge.twice.Reachable ∧ ∃ i, twice.find ⟨0⟩ = .ok i ∧
    i.machine.store.global [0x69, 0x64] = .int 7 ∧ i.machine.Reads 0 (.int 7) ∧
      i.machine.Reads 2 (.int 7) ∧ ∀ v, ∃ m',
        Machine.execute (.globalStore 0) { i.machine with stack := #[v], frames := #[] } =
          .ok none m' ∧ m'.store.global [0x69, 0x64] = v ∧ m'.Reads 2 v ∧ m'.Reads 1 .nil := by
  have hnew : (Bridge.new 1 0 {} () : Bridge Unit).Reachable := .new 1 0 {} ()
  have hreachable : Bridge.twice.Reachable := hnew.after
    (show (Operation.load Files.twice "script" "symbols" 7).after 0 _ = some twice from rfl)
  obtain ⟨i, hfind, hstrings, hid, hb⟩ := exists_find_twice
  have hmem := mem_of_find hfind
  have hidle := (hreachable.namesGlobals i.machine.stack i.machine.frames i.machine.pc).1 i hmem
  have hreads := (hidle.reads _ .refl [0x69, 0x64]).2
  rw [hid] at hreads
  refine ⟨hreachable, i, hfind, hid, hreads 0 (by simp [hstrings]), hreads 2 (by simp [hstrings]),
    fun v => ?_⟩
  have hbusy := (hreachable.namesGlobals #[v] #[] i.machine.pc).1 i hmem
  obtain ⟨m', hexecute, _, hshows⟩ :=
    hbusy.stores 0 [0x69, 0x64] (by simp [hstrings]) #[] v rfl (Nat.le_refl _)
  obtain ⟨hname, hset⟩ := hshows m' .refl [0x69, 0x64]
  have hother := (hshows m' .refl [0x62]).2 1 (by simp [hstrings])
  simp only [Function.update_self] at hname hset
  rw [Function.update_of_ne (by decide), hb] at hother
  exact ⟨m', hexecute, hname, hset 2 (by simp [hstrings]), hother⟩

end Swarm
