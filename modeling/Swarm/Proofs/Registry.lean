import Swarm.Proofs.History
import Swarm.Proofs.Turns

/-!
# The registry of machines

Whatever the operations of the host are, a bridge never holds more machines than
it may, every machine is found at its handle, and what is known about a script
agrees with its machine. Loading is taken apart into its steps here, so that what
a failure leaves behind depends on the order of the steps.
-/

namespace Swarm

variable {σ : Type}

/-- A machine that has just been loaded is at rest. -/
theorem Machine.atRest_loaded (program : Program) (limits : Limits) (contextId : UInt16) :
    (Machine.loaded program limits contextId).AtRest := by
  unfold Machine.loaded
  rw [Machine.new_eq]
  exact ⟨rfl, rfl⟩

/-- A script of which nothing has been asked. -/
theorem Instance.consistent_new {i : Instance} (hrest : i.machine.AtRest)
    (hstepped : i.stepped = false) (hstate : i.state = .unstepped) : i.Consistent where
  rest _ := hrest
  stepped hfaulted := absurd hrest.1 (by simp [hfaulted])
  state := by simp [hrest.1, hstepped, hstate]

namespace Instance.Consistent

variable {i : Instance}

/-- A script is unstepped if it has taken no step. -/
theorem unstepped_iff (hi : i.Consistent) : i.state = .unstepped ↔ i.stepped = false := by
  have hstepped := hi.stepped
  rw [hi.state]
  revert hstepped
  cases i.machine.isReady <;> cases i.stepped <;> simp

/-- A script is faulted if its machine is not ready. -/
theorem faulted_iff (hi : i.Consistent) :
    i.state = .faulted ↔ i.machine.isReady = false := by
  rw [hi.state]
  cases i.machine.isReady <;> cases i.stepped <;> simp

/-- A script is stepped if it has taken a step and its machine is ready. -/
theorem stepped_iff (hi : i.Consistent) :
    i.state = .stepped ↔ i.stepped = true ∧ i.machine.isReady = true := by
  rw [hi.state]
  cases i.machine.isReady <;> cases i.stepped <;> simp

/-- A script in the registry has not been destroyed. -/
theorem ne_destroyed (hi : i.Consistent) : i.state ≠ .destroyed := by
  rw [hi.state]
  cases i.machine.isReady <;> cases i.stepped <;> simp

end Instance.Consistent

/-- A step is ready if the machine is. -/
theorem Instance.outcome_eq_ready_iff (i : Instance) :
    i.outcome = .ready ↔ i.machine.isReady = true := by
  unfold outcome
  split <;> simp_all

/-- A step reports a fault with the diagnosis of the script. -/
theorem Instance.outcome_eq_faulted_iff (i : Instance) (diagnosis : String) :
    i.outcome = .faulted diagnosis ↔ i.machine.isReady = false ∧ i.diagnosis = diagnosis := by
  unfold outcome
  split <;> simp_all

/-- Changing a store changes nothing that is known about the script. -/
theorem Instance.Consistent.withStore {i : Instance} (hi : i.Consistent) (s : Store Native) :
    Instance.Consistent { i with machine := { i.machine with store := s } } :=
  ⟨hi.rest, hi.stepped, hi.state⟩

namespace Bridge

variable {b b' : Bridge σ} {vm : Handle} {i i' : Instance}

/-- The bridge is not too full, and every machine in it is at its handle and known as it is. -/
structure Registered (b : Bridge σ) : Prop where
  bounded : b.vmCount ≤ b.maxVms
  each : ∀ (k : Nat) (i : Instance), b.instances[k]? = some i → i.handle = ⟨k⟩ ∧ i.Consistent

/-- The scripts of a registered bridge are consistent. -/
theorem Registered.consistent (hb : b.Registered) (i : Instance) (hi : i ∈ b.instances) :
    i.Consistent := by
  obtain ⟨k, hk⟩ := Array.mem_iff_getElem?.mp hi
  exact (hb.each k i hk).2

/-- Only the instances of a bridge and its bound matter. -/
theorem Registered.of_eq (hb : b.Registered) (hinstances : b'.instances = b.instances)
    (hmax : b'.maxVms = b.maxVms) : b'.Registered := by
  refine ⟨?_, ?_⟩
  · unfold vmCount
    rw [hinstances, hmax]
    exact hb.bounded
  · rw [hinstances]
    exact hb.each

/-- A machine is put back with the same script. -/
theorem Registered.replace (hb : b.Registered) (hfind : b.find vm = .ok i)
    (hinstances : b'.instances = (b.replace vm i').instances) (hmax : b'.maxVms = b.maxVms)
    (hsame : i.SameScript i') (hi' : i'.Consistent) : b'.Registered := by
  refine ⟨?_, fun k j hj => ?_⟩
  · have hsize : b'.vmCount = b.vmCount := by
      unfold vmCount
      rw [hinstances]
      exact Array.size_setIfInBounds
    rw [hsize, hmax]
    exact hb.bounded
  · rcases getElem?_replace hinstances hj with ⟨rfl, rfl⟩ | ⟨_, hj⟩
    · exact ⟨hsame.handle.trans (hb.each _ i (getElem?_of_find hfind)).1, hi'⟩
    · exact hb.each k j hj

/-- A machine is added with the next handle. -/
theorem Registered.push (hb : b.Registered) (hroom : b.vmCount < b.maxVms)
    (hinstances : b'.instances = b.instances.push i) (hmax : b'.maxVms = b.maxVms)
    (hhandle : i.handle = ⟨b.vmCount⟩) (hi : i.Consistent) : b'.Registered := by
  refine ⟨?_, fun k j hj => ?_⟩
  · have hsize : b'.vmCount = b.vmCount + 1 := by
      unfold vmCount
      rw [hinstances, Array.size_push]
    rw [hsize, hmax]
    exact hroom
  · rw [hinstances, Array.getElem?_push] at hj
    split at hj
    · rename_i hk
      cases hj
      rw [hk]
      exact ⟨hhandle, hi⟩
    · exact hb.each k j hj

/-- A step keeps a bridge registered. -/
theorem Registered.step (hb : b.Registered) {fuel : Nat} {outcome : StepOutcome}
    (h : b.step fuel vm = some (.ok (outcome, b'))) : b'.Registered := by
  obtain ⟨i, i', world, hfind, hstep, rfl⟩ := exists_of_step h
  obtain ⟨_, _, hends⟩ := (hb.consistent i (mem_of_find hfind)).step b.hooks fuel b.world
  obtain ⟨_, hsame, hi', _⟩ := hends _ _ _ hstep
  exact hb.replace hfind rfl rfl hsame hi'

/-- A load keeps a bridge registered. -/
theorem Registered.load (hb : b.Registered) {files : Files} {bytecodePath debugPath : String}
    {contextId : UInt16} {handle : Handle}
    (h : b.load files bytecodePath debugPath contextId = .ok (b', handle)) : b'.Registered := by
  obtain ⟨program, debug, hroom, _, _, hadd⟩ := exists_of_load h
  cases hadd
  exact hb.push hroom rfl rfl rfl
    (Instance.consistent_new (Machine.atRest_loaded program b.limits contextId) rfl rfl)

/-- Every operation keeps the registry. -/
theorem Registered.after (hb : b.Registered) {fuel : Nat} {op : Operation σ}
    (hop : op.after fuel b = some b') : b'.Registered := by
  cases op with
  | load files bytecodePath debugPath contextId =>
    cases hop
    cases hresult : b.load files bytecodePath debugPath contextId with
    | error e => exact hb
    | ok loaded => exact hb.load hresult
  | step vm =>
    obtain ⟨result, hresult, rfl⟩ := Option.map_eq_some_iff.mp hop
    match result with
    | .error e => exact hb
    | .ok (outcome, b') => exact hb.step hresult
  | destroyAll =>
    obtain ⟨result, hresult, rfl⟩ := Option.map_eq_some_iff.mp hop
    obtain ⟨inner, _, rfl⟩ := Option.map_eq_some_iff.mp hresult
    exact ⟨Nat.zero_le _, fun k i hi => by cases hi⟩
  | _ =>
    cases touches_after hop trivial with
    | nothing hinstances hmax => exact hb.of_eq hinstances hmax
    | store hfind hs hinstances hmax =>
      have hi := hb.consistent _ (mem_of_find hfind)
      exact hb.replace hfind hinstances hmax ⟨rfl, rfl, rfl⟩ (hi.withStore _)

/-- Every reachable bridge is registered. -/
theorem Reachable.registered (h : b.Reachable) : b.Registered := by
  induction h with
  | new maxVms hookCapacity limits host => exact ⟨Nat.zero_le _, fun k i hi => by cases hi⟩
  | after _ hop ih => exact ih.after hop

/-- Looking at the bridge changes nothing. -/
theorem get_bind {ε α : Type} (b : Bridge σ) (next : Bridge σ → EStateM ε (Bridge σ) α) :
    (get >>= next) b = next b b := rfl

section Loading

variable (files : Files) (bytecodePath debugPath : String) (contextId : UInt16)

/-- Loading a script step by step; what was done before a failure stays. -/
def loading : EStateM LoadError (Bridge σ) Handle := do
  let b ← get
  if b.maxVms ≤ b.vmCount then throw (.capacity b.maxVms)
  let debug ← MonadExcept.ofExcept (readDebug files debugPath)
  let program ← MonadExcept.ofExcept (readProgram files bytecodePath)
  modify fun b =>
    let (_, library, world) := b.library.bootstrap b.world
    { b with library, world }
  let machine := Machine.loaded program b.limits contextId
  let handle ← modifyGet fun b =>
    let handle : Handle := ⟨b.vmCount⟩
    let new : Instance := { handle, script := bytecodePath, machine, debug }
    (handle, { b with instances := b.instances.push new })
  modify fun b =>
    b.report .debug s!"{handle.text}: loaded {bytecodePath} (context id {contextId.toNat})"
  return handle

/-- Loading fails before it changes anything. -/
theorem loading_eq (b : Bridge σ) : loading files bytecodePath debugPath contextId b =
    match b.load files bytecodePath debugPath contextId with
    | .ok (b', handle) => .ok handle b'
    | .error e => .error e b := by
  unfold loading load
  rw [get_bind]
  by_cases hfull : b.maxVms ≤ b.vmCount
  · rw [if_pos hfull, if_pos hfull]
    rfl
  · rw [if_neg hfull, if_neg hfull]
    cases readDebug files debugPath with
    | error e => rfl
    | ok debug =>
      cases readProgram files bytecodePath with
      | error e => rfl
      | ok program => rfl

end Loading

/-- One machine has been added with the next handle, and the host has been brought up. Apart from
reports nothing else is different. -/
def Gains (b : Bridge σ) (script : String) (contextId : UInt16) (handle : Handle)
    (b' : Bridge σ) : Prop :=
  handle = ⟨b.vmCount⟩ ∧ ∃ program debug journal, b' =
    { b with
      instances := b.instances.push
        { handle, script, machine := .loaded program b.limits contextId, debug }
      library := { b.library with bootstrapped := true }
      world := { b.world with journal } }

/-- A load that succeeds gains one script. -/
theorem gains_of_load {files : Files} {bytecodePath debugPath : String} {contextId : UInt16}
    {handle : Handle} (h : b.load files bytecodePath debugPath contextId = .ok (b', handle)) :
    b.Gains bytecodePath contextId handle b' := by
  obtain ⟨program, debug, _, _, _, hadd⟩ := exists_of_load h
  obtain ⟨first, journal, hboot⟩ : ∃ first journal, b.library.bootstrap b.world =
      (first, { b.library with bootstrapped := true }, { b.world with journal }) := by
    unfold HostLibrary.bootstrap
    split
    · rename_i hbooted
      exact ⟨false, b.world.journal, by rw [← hbooted]⟩
    · exact ⟨true, _, rfl⟩
  unfold addInstance at hadd
  rw [hboot] at hadd
  cases hadd
  exact ⟨rfl, program, debug, _, rfl⟩

/-- A machine stays loaded until all machines are unloaded. -/
theorem exists_find_after {fuel : Nat} {op : Operation σ} (hop : op.after fuel b = some b')
    (hkeep : op ≠ .destroyAll) (hfind : b.find vm = .ok i) : ∃ i', b'.find vm = .ok i' := by
  obtain ⟨hlt, _⟩ := Array.getElem?_eq_some_iff.mp (getElem?_of_find hfind)
  have hsize (h : b.instances.size ≤ b'.instances.size) : ∃ i', b'.find vm = .ok i' :=
    ⟨_, find_of_instance? (Array.getElem?_eq_getElem (Nat.lt_of_lt_of_le hlt h))⟩
  have hreplace {other : Handle} {j : Instance} {bridge : Bridge σ}
      (h : bridge.instances = (b.replace other j).instances) :
      b.instances.size ≤ bridge.instances.size := by
    rw [h]
    exact Nat.le_of_eq Array.size_setIfInBounds.symm
  cases op with
  | load files bytecodePath debugPath contextId =>
    cases hop
    cases hload : b.load files bytecodePath debugPath contextId with
    | error e => exact ⟨i, hfind⟩
    | ok loaded =>
      rw [hload] at hsize
      obtain ⟨b', handle⟩ := loaded
      obtain ⟨_, program, debug, journal, rfl⟩ := gains_of_load hload
      apply hsize
      change b.instances.size ≤ (b.instances.push _).size
      rw [Array.size_push]
      exact Nat.le_succ _
  | step other =>
    obtain ⟨result, hresult, rfl⟩ := Option.map_eq_some_iff.mp hop
    match result with
    | .error e => exact ⟨i, hfind⟩
    | .ok (outcome, b') =>
      obtain ⟨_, j, _, _, _, rfl⟩ := exists_of_step hresult
      exact hsize (hreplace rfl)
  | destroyAll => exact absurd rfl hkeep
  | _ =>
    cases touches_after hop trivial with
    | nothing hinstances _ => exact hsize (Nat.le_of_eq (by rw [hinstances]))
    | store _ _ hinstances _ => exact hsize (hreplace hinstances)

/-- What the registry of a bridge is like, and what steps and loads make of it. -/
structure KeepsRegistry (b : Bridge σ) : Prop where
  bounded : b.vmCount ≤ b.maxVms
  handles : ∀ (k : Nat) (i : Instance), b.instances[k]? = some i → i.handle = ⟨k⟩
  unstepped : ∀ i ∈ b.instances, i.state = .unstepped ↔ i.stepped = false
  faulted : ∀ i ∈ b.instances, i.state = .faulted ↔ i.machine.isReady = false
  stepped : ∀ i ∈ b.instances,
    i.state = .stepped ↔ i.stepped = true ∧ i.machine.isReady = true
  notDestroyed : ∀ i ∈ b.instances, i.state ≠ .destroyed
  done : ∀ vm, b.done vm = .ok true ↔ b.execState vm = .ok .faulted
  /-- A step ends in readiness just if the machine is ready after it. -/
  step : ∀ fuel vm outcome b', b.step fuel vm = some (.ok (outcome, b')) →
    (outcome = .ready ↔ b'.done vm = .ok false)
  /-- Loading at once and loading step by step are the same. -/
  loads : ∀ files bytecodePath debugPath contextId,
    loading files bytecodePath debugPath contextId b =
      match b.load files bytecodePath debugPath contextId with
      | .ok (b', handle) => .ok handle b'
      | .error e => .error e b
  loadFails : ∀ files bytecodePath debugPath contextId e b',
    loading files bytecodePath debugPath contextId b = .error e b' → b' = b
  loadSucceeds : ∀ files bytecodePath debugPath contextId handle b',
    loading files bytecodePath debugPath contextId b = .ok handle b' →
      b.Gains bytecodePath contextId handle b'

/-- A script that is found is done if its machine is not ready. -/
theorem done_eq (hfind : b.find vm = .ok i) : b.done vm = .ok !i.machine.isReady := by
  unfold done
  rw [hfind]
  rfl

/-- The state of a script that is found is the one noted. -/
theorem execState_eq (hfind : b.find vm = .ok i) : b.execState vm = .ok i.state := by
  unfold execState
  rw [hfind]
  rfl

/-- The diagnosis of a script that is found is the one noted. -/
theorem explain_eq (hfind : b.find vm = .ok i) : b.explain vm = .ok i.diagnosis := by
  unfold explain
  rw [hfind]
  rfl

/-- The registry of a bridge is kept whatever the operations of the host have been: a bridge has
room for its machines and finds each of them at its handle, the state of a script is decided by
its flag and by its machine, and a load changes the bridge only if it succeeds. -/
theorem Reachable.keepsRegistry (h : b.Reachable) : b.KeepsRegistry := by
  have hb := h.registered
  have hconsistent := hb.consistent
  refine ⟨hb.bounded, fun k i hi => (hb.each k i hi).1, ?_, ?_, ?_, ?_, ?_, ?_, ?_, ?_, ?_⟩
  · exact fun i hi => (hconsistent i hi).unstepped_iff
  · exact fun i hi => (hconsistent i hi).faulted_iff
  · exact fun i hi => (hconsistent i hi).stepped_iff
  · exact fun i hi => (hconsistent i hi).ne_destroyed
  · intro vm
    cases hfind : b.find vm with
    | error e => simp [done, execState, hfind, bind, Except.bind]
    | ok i =>
      have hfaulted := (hconsistent i (mem_of_find hfind)).faulted_iff
      rw [done_eq hfind, execState_eq hfind, Except.ok.injEq, Except.ok.injEq, hfaulted]
      simp
  · intro fuel vm outcome b' hanswer
    obtain ⟨i, i', world, hfind, hstep, hb'⟩ := exists_of_step hanswer
    have hfind' : b'.find vm = .ok i' := find_replace hfind (by rw [hb'])
    obtain ⟨_, _, hends⟩ := (hconsistent i (mem_of_find hfind)).step b.hooks fuel b.world
    obtain ⟨_, _, _, rfl⟩ := hends _ _ _ hstep
    rw [done_eq hfind', i'.outcome_eq_ready_iff]
    simp
  · exact fun files bytecodePath debugPath contextId => loading_eq _ _ _ _ b
  · intro files bytecodePath debugPath contextId e b' hloading
    rw [loading_eq] at hloading
    split at hloading <;> cases hloading
    rfl
  · intro files bytecodePath debugPath contextId handle b' hloading
    rw [loading_eq] at hloading
    split at hloading <;> rename_i hload <;> cases hloading
    exact gains_of_load hload

end Bridge

/-- A script whose body fails and one whose body does nothing, with a debug-symbol table without
entries. The file `cut` ends too early. -/
def Files.assorted : Files := fun path =>
  if path = "failing" then .ok [0x48, 0x49, 0x56, 0x45, 1, 0, 0, 3, 0, 0, 0, 2, 27, 0]
  else if path = "idling" then .ok [0x48, 0x49, 0x56, 0x45, 1, 0, 0, 1, 0, 0, 0, 0]
  else if path = "cut" then .ok [0x48, 0x44]
  else .ok [0x48, 0x44, 0x42, 0x47, 0, 0]

namespace Bridge

/-- A bridge with room for three machines, into which both scripts have been loaded. Each has taken
a step. -/
def assorted : Bridge Unit :=
  (Operation.afterAll 19 (.new 3 0 {} ()) [.load Files.assorted "failing" "symbols" 7,
    .load Files.assorted "idling" "symbols" 8, .step ⟨0⟩, .step ⟨1⟩]).get (by decide +kernel)

/-- One of the machines has faulted and the other one has not. A load that finds a debug-symbol
table cut short leaves the bridge alone, and one that finds all in order takes the last place. -/
theorem keepsRegistry_assorted : assorted.KeepsRegistry ∧
    assorted.execState ⟨0⟩ = .ok .faulted ∧ assorted.execState ⟨1⟩ = .ok .stepped ∧
    (∃ e, loading Files.assorted "idling" "cut" 9 assorted = .error e assorted) ∧
    ∃ b', loading Files.assorted "idling" "symbols" 9 assorted = .ok ⟨2⟩ b' ∧
      assorted.Gains "idling" 9 ⟨2⟩ b' := by
  have hreachable : assorted.Reachable :=
    (Reachable.new 3 0 {} ()).afterAll (Option.some_get _).symm
  have hkeeps := Reachable.keepsRegistry hreachable
  have hcut : (assorted.load Files.assorted "idling" "cut" 9).toOption.isNone = true := by
    decide +kernel
  have hwhole : (assorted.load Files.assorted "idling" "symbols" 9).toOption.any
      (fun loaded => decide (loaded.2 = ⟨2⟩)) = true := by decide +kernel
  refine ⟨hkeeps, by decide +kernel, by decide +kernel, ?_, ?_⟩
  · rw [hkeeps.loads]
    cases hload : assorted.load Files.assorted "idling" "cut" 9 with
    | error e => exact ⟨e, rfl⟩
    | ok loaded =>
      rw [hload] at hcut
      cases hcut
  · obtain ⟨⟨b', handle⟩, hload, hhandle⟩ := exists_of_any_toOption hwhole
    obtain rfl : handle = ⟨2⟩ := of_decide_eq_true hhandle
    have hloading : loading Files.assorted "idling" "symbols" 9 assorted = .ok ⟨2⟩ b' := by
      rw [hkeeps.loads, hload]
    exact ⟨b', hloading, hkeeps.loadSucceeds _ _ _ _ _ _ hloading⟩

end Bridge

end Swarm
