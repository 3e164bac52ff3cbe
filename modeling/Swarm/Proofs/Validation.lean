import Swarm.Proofs.Bounds
import Swarm.Proofs.SoundLife

/-!
# Validation is enough for execution

Programs are validated once, when they are read. Whatever the host does afterwards
and wherever an execution stands, also in a call that a native function has made:
the machine is at a boundary of its code and returns to boundaries, all functions
that it can reach exist, and the strings that its instructions name do, too.
-/

namespace Swarm

/-- The machine needs no check that validation has not made: positions are boundaries, functions
that can be reached from the values exist, the instruction at the position names a string of the
program, and no fault tells of missing code inside the code section or of a missing native
function. -/
structure Machine.WithinValidation (m : Machine Native) (values : List Value) : Prop where
  pc : m.program.code.IsBoundary m.pc
  returnPc : ∀ f ∈ m.frames, m.program.code.IsBoundary f.returnPc
  script : ∀ v ∈ values, ∀ address : UInt32,
    m.store.heap.Reaches v (.closure (.script address)) → m.program.code.IsStart address.toNat
  native : ∀ v ∈ values, ∀ id : Nat,
    m.store.heap.Reaches v (.closure (.native id)) → id < m.store.natives.size
  string : ∀ i s, m.program.code.decodeAt m.pc = .ok i → i.string? = some s →
    s.toNat < m.programStrings.size
  decode : ∀ f e, m.fault = some f → f.error = .decode e → e = .outOfBounds m.program.code.size
  known : ∀ f, m.fault = some f → f.error ≠ .unknownNative

namespace Machine

/-- At the start of an instruction the string that it names is one of the program. -/
theorem Sound.string_lt {ν : Type} {m : Machine ν} (hm : m.Sound) {i : Instruction} {s : UInt16}
    (hdecode : m.program.code.decodeAt m.pc = .ok i) (hs : i.string? = some s) :
    s.toNat < m.programStrings.size := by
  rw [hm.size_programStrings]
  rcases hm.pc with ⟨j, hj⟩ | hend
  · rw [m.program.code.tiles_items.decodeAt_of_mem hj] at hdecode
    cases hdecode
    exact m.program.string_lt hj hs
  · rw [Code.decodeAt_eq_outOfBounds (Nat.le_of_eq hend.symm)] at hdecode
    cases hdecode

/-- A sound machine stays within what validation has found. -/
theorem Sound.withinValidation {m : Machine Native} (hm : m.Sound) {values : List Value}
    (hvalues : ∀ v ∈ values, m.Trusts v) : m.WithinValidation values where
  pc := hm.pc
  returnPc := hm.returnPc
  script v hv _ hreach := hvalues v hv _ hreach
  native v hv _ hreach := hvalues v hv _ hreach
  string _ _ hdecode hs := hm.string_lt hdecode hs
  decode f e hf he := by
    have hexpected := hm.fault f hf
    rw [he] at hexpected
    exact hexpected
  known f hf he := by
    have hexpected := hm.fault f hf
    rw [he] at hexpected
    exact hexpected

end Machine

/-- After any operations of the host on scripts that passed validation, every idle machine and every
machine at work is within validation, and no execution ends because a native function is missing
or because decoding fails before the end of the code. -/
theorem Bridge.Reachable.validation_suffices {σ : Type} {b : Bridge σ} (h : b.Reachable) :
    (∀ i ∈ b.instances, i.machine.WithinValidation i.machine.roots) ∧
      ∀ e, b.Underway e → e.machine.WithinValidation e.values ∧
        ∀ error, e.phase = .leaving (.error error) → error ≠ .unknownNative ∧
          ∀ fault, error = .decode fault → fault = .outOfBounds e.machine.program.code.size := by
  constructor
  · intro i hi
    have hm := h.sound hi
    exact hm.withinValidation fun v hv => hm.trusts_roots hv
  intro e he
  have hsound := h.sound_underway he
  constructor
  · exact hsound.machine.sound.withinValidation fun v hv => hsound.trusts_values hv
  · intro error herror
    have hphase := hsound.phase
    rw [herror] at hphase
    constructor
    · rintro rfl
      exact hphase
    · rintro fault rfl
      exact hphase

/-- The addresses of the functions of a script that tables among the values have as values. -/
def Heap.filed (h : Heap) (values : List Value) : List UInt32 :=
  values.flatMap fun
    | .table id => (h.table id).values.filterMap fun
      | .closure (.script address) => some address
      | _ => none
    | _ => []

/-- A function in a table can be reached. -/
theorem Heap.exists_of_mem_filed {h : Heap} {values : List Value} {address : UInt32}
    (hfiled : address ∈ h.filed values) :
    ∃ v ∈ values, h.Reaches v (.closure (.script address)) := by
  obtain ⟨v, hv, hmem⟩ := List.mem_flatMap.mp hfiled
  split at hmem
  · rename_i id
    obtain ⟨value, hvalue, haddress⟩ := List.mem_filterMap.mp hmem
    split at haddress
    · cases haddress
      obtain ⟨row, hrow, heq⟩ := List.mem_map.mp hvalue
      exact ⟨_, hv, heq ▸ Reaches.value .refl hrow⟩
    · cases haddress
  · cases hmem

/-- Two scripts that put a function into a table. The first one lets a function of its own visit the
table, which calls the function with a string, which puts the string into the table; the second
one calls the function, and its code ends there. And a debug-symbol table without entries. -/
def Files.filing : Files := fun path =>
  if path = "filing" then .ok [0x48, 0x49, 0x56, 0x45, 1, 4, 0, 1, 0, 0x74, 7, 0, 0x66, 0x6f, 0x72,
    0x65, 0x61, 0x63, 0x68, 1, 0, 0x78, 4, 0, 0x6e, 0x6f, 0x74, 0x65, 53, 0, 0, 0, 7, 13, 0, 0, 12,
    0, 0, 3, 1, 0, 0, 0, 6, 42, 0, 0, 0, 10, 12, 1, 0, 12, 0, 0, 6, 32, 0, 0, 0, 16, 2, 0, 14, 2, 0,
    5, 2, 0, 16, 1, 9, 17, 12, 0, 0, 5, 3, 0, 14, 1, 0, 10, 17]
  else if path = "falling" then .ok [0x48, 0x49, 0x56, 0x45, 1, 1, 0, 1, 0, 0x74, 31, 0, 0, 0, 7,
    13, 0, 0, 12, 0, 0, 3, 1, 0, 0, 0, 6, 30, 0, 0, 0, 10, 12, 0, 0, 3, 1, 0, 0, 0, 11, 16, 0, 0, 1]
  else .ok [0x48, 0x44, 0x42, 0x47, 0, 0]

namespace Bridge

/-- A bridge into which both scripts have been loaded. The second one has taken a step. -/
def filing : Bridge Unit :=
  (Operation.afterAll 40 (.new 2 0 {} ()) [.load Files.filing "filing" "symbols" 7,
    .load Files.filing "falling" "symbols" 8, .step ⟨1⟩]).get (by decide +kernel)

/-- The bridge is reachable. -/
theorem reachable_filing : filing.Reachable :=
  (Reachable.new 2 0 {} ()).afterAll (Option.some_get _).symm

/-- The second script has run past the end of its code in a function that it still has in a table.
The first one is in a call that its visitor makes, about to push a string, while `foreach` waits;
it has a function in a table, too. -/
theorem withinValidation_filing : filing.Reachable ∧
    (∃ i ∈ filing.instances, i.machine.WithinValidation i.machine.roots ∧
      i.machine.frames.size = 2 ∧ i.machine.program.code.size = 31 ∧
      (∃ f, i.machine.fault = some f ∧ f.error = .decode (.outOfBounds 31)) ∧
      ∃ v ∈ i.machine.roots, i.machine.store.heap.Reaches v (.closure (.script 30))) ∧
    ∃ e, filing.Underway e ∧ e.machine.WithinValidation e.values ∧ e.machine.frames.size = 4 ∧
      e.waiting.length = 1 ∧
      e.machine.program.code.decodeAt e.machine.pc = .ok (.pushString 3) ∧
      3 < e.machine.programStrings.size ∧ e.machine.program.code.IsStart 42 ∧
      ∃ v ∈ e.values, e.machine.store.heap.Reaches v (.closure (.script 42)) := by
  obtain ⟨hidle, hbusy⟩ := Reachable.validation_suffices reachable_filing
  refine ⟨reachable_filing, ?_, ?_⟩
  · have hcheck : (filing.find ⟨1⟩).toOption.any (fun i => decide
        (i.machine.frames.size = 2 ∧ i.machine.program.code.size = 31 ∧
          i.machine.fault.map Fault.error = some (.decode (.outOfBounds 31)) ∧
          30 ∈ i.machine.store.heap.filed i.machine.roots)) = true := by decide +kernel
    obtain ⟨i, hfind, hat⟩ := exists_of_any_toOption hcheck
    obtain ⟨hframes, hsize, hfault, hfiled⟩ := of_decide_eq_true hat
    exact ⟨i, mem_of_find hfind, hidle i (mem_of_find hfind), hframes, hsize,
      Option.map_eq_some_iff.mp hfault, Heap.exists_of_mem_filed hfiled⟩
  · have hcheck : (filing.bodyAt? 15).any (fun e => decide
        (e.machine.frames.size = 4 ∧ e.waiting.length = 1 ∧
          e.machine.program.code.decodeAt e.machine.pc = .ok (.pushString 3) ∧
          42 ∈ e.machine.store.heap.filed e.values)) = true := by decide +kernel
    obtain ⟨e, he, hat⟩ := (Option.any_eq_true _ _).mp hcheck
    obtain ⟨hframes, hwaiting, hnext, hfiled⟩ := of_decide_eq_true hat
    have hunderway := underway_of_bodyAt? he
    have hwithin := (hbusy e hunderway).1
    obtain ⟨v, hv, hreach⟩ := Heap.exists_of_mem_filed hfiled
    exact ⟨e, hunderway, hwithin, hframes, hwaiting, hnext, hwithin.string _ 3 hnext rfl,
      hwithin.script v hv 42 hreach, v, hv, hreach⟩

end Bridge

end Swarm
