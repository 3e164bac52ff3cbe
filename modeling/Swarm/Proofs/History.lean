import Swarm.Proofs.Life

/-!
# Histories of bridges

A history of a bridge is a sequence of operations of the host; an operation that
fails counts as well, and between operations the host may do to its world what it
likes. While an operation runs, executions are under way. Every loaded machine
and every execution under way lies on the life of one machine.
-/

namespace Swarm

/-- The machine that is made when a program is loaded. -/
def Machine.loaded (program : Program) (limits : Limits) (contextId : UInt16) : Machine Native :=
  (Machine.new program limits contextId .builtin).mapStore Store.installPrint

/-- A new machine has the strings of its program and what every script is given. -/
theorem Machine.new_eq {ν : Type} (program : Program) (limits : Limits) (contextId : UInt16)
    (toNative : Builtin → ν) :
    Machine.new program limits contextId toNative =
      { contextId, limits, program
        programStrings := (StringTable.internAll {} program.strings).2
        store :=
          (Builtin.all.foldl (Builtin.install toNative)
            (({ strings := (StringTable.internAll {} program.strings).1 } : Store ν).setGlobal
              (Utf8.encode "id") (.int (Int64.ofNat contextId.toNat)))).resetNeighbors } := by
  unfold Machine.new
  obtain ⟨strings, programStrings⟩ := StringTable.internAll {} program.strings
  rfl

variable {σ : Type}

/-- What a machine can come to. -/
inductive Stage.Reached : Stage σ → Prop where
  | load {image : Bytes} {program : Program} (h : Program.ofBytes image = .ok program)
      (limits : Limits) (contextId : UInt16) : Reached (.idle (.loaded program limits contextId))
  | next {s s' : Stage σ} (h : Reached s) (hnext : s.Next s') : Reached s'
  | release {m : Machine Native} (h : Reached (.idle m)) : Reached (.idle m.released)

/-- What is reached leads on to what is reached. -/
theorem Stage.Reached.leads {s s' : Stage σ} (h : s.Reached) (hlead : s.Leads s') : s'.Reached := by
  induction hlead with
  | refl => exact h
  | tail _ hnext ih => exact ih.next hnext

/-- An operation of the host on a bridge. -/
inductive Operation (σ : Type) where
  | load (files : Files) (bytecodePath debugPath : String) (contextId : UInt16)
  | step (vm : Handle)
  | destroyAll
  | resetNeighbors (vm : Handle)
  | addNeighbor (vm : Handle) (id : Int) (position : Position)
  | setAbsolutePosition (vm : Handle) (position : Position)
  | feedMessage (vm : Handle) (sender : Int) (payload : Bytes)
  | nextOutbound (vm : Handle)
  | installModule (m : HostModule σ)
  | importModule (name : String)
  | registerHook (vm : Handle) (slot : Nat) (name : String)
  | registerInit
  /-- The host changes its world. -/
  | changeWorld (w : World σ)

/-- The operation neither loads nor steps nor unloads machines. -/
def Operation.IsMinor : Operation σ → Prop
  | .load .. | .step _ | .destroyAll => False
  | _ => True

/-- The bridge that an attempt leaves: a failed one leaves it as it is. -/
def Bridge.attempt {ε : Type} (b : Bridge σ) : Except ε (Bridge σ) → Bridge σ
  | .ok b' => b'
  | .error _ => b

/-- The bridge after an operation; there is none if the operation takes more steps of execution
than the fuel. -/
def Operation.after (fuel : Nat) (b : Bridge σ) : Operation σ → Option (Bridge σ)
  | .load files bytecodePath debugPath contextId =>
    some (b.attempt ((b.load files bytecodePath debugPath contextId).map Prod.fst))
  | .step vm => (b.step fuel vm).map fun result => b.attempt (result.map Prod.snd)
  | .destroyAll => (b.destroyAll fuel).map Prod.snd
  | .resetNeighbors vm => some (b.attempt (b.resetNeighbors vm))
  | .addNeighbor vm id position => some (b.attempt (b.addNeighbor vm id position))
  | .setAbsolutePosition vm position => some (b.attempt (b.setAbsolutePosition vm position))
  | .feedMessage vm sender payload => some (b.attempt (b.feedMessage vm sender payload))
  | .nextOutbound vm => some (b.attempt ((b.nextOutbound vm).map Prod.snd))
  | .installModule m => some (b.installModule m)
  | .importModule name => some (b.attempt (b.importModule name))
  | .registerHook vm slot name => some (b.attempt (b.registerHook vm slot name))
  | .registerInit => some b.registerInit.2
  | .changeWorld w => some { b with world := w }

/-- A bridge that a sequence of operations leads to. -/
inductive Bridge.Reachable : Bridge σ → Prop where
  | new (maxVms hookCapacity : Nat) (limits : Limits) (host : σ) :
      Reachable (.new maxVms hookCapacity limits host)
  | after {b b' : Bridge σ} (h : Reachable b) {fuel : Nat} {op : Operation σ}
      (hop : op.after fuel b = some b') : Reachable b'

/-- What some test finds in an answer is in it. -/
theorem exists_of_any_toOption {ε α : Type} {answer : Except ε α} {p : α → Bool}
    (h : answer.toOption.any p = true) : ∃ a, answer = .ok a ∧ p a = true := by
  cases answer with
  | error e => cases h
  | ok a => exact ⟨a, rfl, h⟩

/-- The bridge after operations one after the other. -/
def Operation.afterAll (fuel : Nat) (b : Bridge σ) : List (Operation σ) → Option (Bridge σ)
  | [] => some b
  | op :: ops => do afterAll fuel (← op.after fuel b) ops

/-- Operations lead from a bridge to which operations have led to another such bridge. -/
theorem Bridge.Reachable.afterAll {fuel : Nat} {b b' : Bridge σ} {ops : List (Operation σ)}
    (h : b.Reachable) (hops : Operation.afterAll fuel b ops = some b') : b'.Reachable := by
  induction ops generalizing b with
  | nil =>
    cases hops
    exact h
  | cons op ops ih =>
    obtain ⟨b₁, hop, hrest⟩ := Option.bind_eq_some_iff.mp hops
    exact ih (h.after hop) hrest

section Underway

variable (hooks : HookTable σ)

/-- Calling the global function of the name begins the execution. -/
def Machine.BeginsCall (m : Machine Native) (w : World σ) (name : String)
    (e : Execution Native Traversal σ) : Prop :=
  m.isReady = true ∧ (m.store.global (Utf8.encode name)).isNil = false ∧
    e = .startCall m w [] (m.store.global (Utf8.encode name)) []

/-- Hearing the messages that wait begins the execution. -/
inductive Machine.BeginsHearing :
    Machine Native → World σ → Execution Native Traversal σ → Prop where
  | now {m m' : Machine Native} {w w' : World σ} {listener : Value} {arguments : List Value}
      (h : m.nextDelivery w = (some (listener, arguments), m', w')) :
      BeginsHearing m w (.startCall m' w' [] listener arguments)
  | later {m m' : Machine Native} {w w' : World σ} {listener : Value} {arguments : List Value}
      {fuel : Nat} {v : Value} {m₁ : Machine Native} {w₁ : World σ}
      {e : Execution Native Traversal σ}
      (h : m.nextDelivery w = (some (listener, arguments), m', w'))
      (hcall : m'.callValue (Native.system hooks) fuel listener arguments w' =
        some ⟨.ok v, m₁, w₁⟩)
      (hrest : BeginsHearing m₁ w₁ e) : BeginsHearing m w e

/-- The part of a turn before messages are heard has succeeded. -/
def Instance.Begun (i : Instance) (w : World σ) (i' : Instance) (w' : World σ) : Prop :=
  (i.stepped = true ∧ i' = i ∧ w' = w) ∨
    (i.stepped = false ∧ ∃ fuel, Instance.begin hooks fuel (i, w) = some (.ok (), i', w'))

/-- A turn of the script begins the execution. -/
inductive Instance.BeginsTurn (i : Instance) (w : World σ) :
    Execution Native Traversal σ → Prop where
  | body (hfirst : i.stepped = false) : BeginsTurn i w (.startScript i.machine w [])
  | init {fuel : Nat} {m : Machine Native} {w' : World σ} {e : Execution Native Traversal σ}
      (hfirst : i.stepped = false)
      (hbody : i.machine.executeScript (Native.system hooks) fuel w = some ⟨.ok (), m, w'⟩)
      (hcall : m.BeginsCall w' "init" e) : BeginsTurn i w e
  | hear {i' : Instance} {w' : World σ} {e : Execution Native Traversal σ}
      (hbegun : i.Begun hooks w i' w') (hready : i'.machine.isReady = true)
      (hhear : i'.machine.BeginsHearing hooks w' e) : BeginsTurn i w e
  | step {i' : Instance} {w' : World σ} {fuel n : Nat} {m : Machine Native} {w₁ : World σ}
      {e : Execution Native Traversal σ} (hbegun : i.Begun hooks w i' w')
      (hheard : i'.machine.processInbound (Native.system hooks) fuel w' = some ⟨.ok n, m, w₁⟩)
      (hcall : m.BeginsCall w₁ "step" e) : BeginsTurn i w e

/-- An operation on the bridge is in the middle of the execution. -/
inductive Bridge.Underway (b : Bridge σ) : Execution Native Traversal σ → Prop where
  | step {vm : Handle} {i : Instance} {e e' : Execution Native Traversal σ}
      (hfind : b.find vm = .ok i) (hready : i.machine.isReady = true)
      (hbegin : i.BeginsTurn b.hooks b.world e) (hpasses : e.Passes (Native.system b.hooks) e') :
      Underway b e'
  | destroy {fuel : Nat} {before rest : List Instance} {i : Instance} {diagnoses : List String}
      {w : World σ} {e e' : Execution Native Traversal σ}
      (hinstances : b.instances.toList = before ++ i :: rest)
      (hbefore : Instance.destroyEach b.hooks fuel before b.world = some (diagnoses, w))
      (hbegin : i.machine.BeginsCall w "destroy" e)
      (hpasses : e.Passes (Native.system b.hooks) e') : Underway b e'

end Underway

/-- What a machine is between two operations: a loaded one. -/
def Machine.IsLoaded (m : Machine Native) : Prop :=
  ∃ (image : Bytes) (program : Program) (limits : Limits) (contextId : UInt16),
    Program.ofBytes image = .ok program ∧ m = .loaded program limits contextId

/-- An operation has led the one machine to the other; the release of strings may have been its
last move. -/
def Machine.Descends (σ : Type) (m m' : Machine Native) : Prop :=
  m.Leads σ m' ∨ ∃ m₁, m.Leads σ m₁ ∧ m' = m₁.released

/-- What an idle machine that is reached comes to is reached. -/
theorem Stage.Reached.descends {m m' : Machine Native}
    (h : Stage.Reached (σ := σ) (.idle m)) (hm : m.Descends σ m') :
    Stage.Reached (σ := σ) (.idle m') := by
  rcases hm with hlead | ⟨m₁, hlead, rfl⟩
  · exact h.leads hlead
  · exact (h.leads hlead).release

/-- Different handles have different indices. -/
theorem Handle.index_ne {vm other : Handle} (h : vm ≠ other) : vm.index ≠ other.index :=
  fun hindex => h (congrArg Handle.mk hindex)

namespace Bridge

variable {b b' : Bridge σ} {vm : Handle} {i : Instance}

/-- Every machine of the later bridge has come from the one with the same handle, or is a loaded
one with a new handle. -/
def Follows (b b' : Bridge σ) : Prop :=
  ∀ (k : Nat) (i' : Instance), b'.instances[k]? = some i' →
    (∃ i, b.instances[k]? = some i ∧ i.machine.Descends σ i'.machine) ∨
      (b.instances[k]? = none ∧ i'.machine.IsLoaded)

/-- With the same instances a bridge follows the other. -/
theorem follows_of_eq (h : b'.instances = b.instances) : b.Follows b' := by
  intro k i' hi'
  rw [h] at hi'
  exact .inl ⟨i', hi', .inl .refl⟩

/-- What is found for a handle stands at its index. -/
theorem getElem?_of_find (h : b.find vm = .ok i) : b.instances[vm.index]? = some i := by
  unfold find instance? at h
  split at h
  · rename_i hget
    cases h
    exact hget
  · cases h

/-- The instance of a handle is found. -/
theorem find_of_instance? (h : b.instance? vm = some i) : b.find vm = .ok i := by
  unfold find
  rw [h]

/-- What is found depends only on the instance of the handle. -/
theorem find_congr (h : b'.instance? vm = b.instance? vm) : b'.find vm = b.find vm := by
  unfold find
  rw [h]

/-- What is found is one of the instances. -/
theorem mem_of_find (h : b.find vm = .ok i) : i ∈ b.instances :=
  Array.mem_of_getElem? (getElem?_of_find h)

/-- A step of a handle that is found is a step of its instance, put back. -/
theorem step_of_find {fuel : Nat} (h : b.find vm = .ok i) :
    b.step fuel vm = (i.step b.hooks fuel b.world).map fun (outcome, i', world) =>
      .ok (outcome, { b.replace vm i' with world }) := by
  unfold step
  rw [h]

/-- A step of a handle that is found is no error of the bridge. -/
theorem step_ne_error {fuel : Nat} (h : b.find vm = .ok i) (e : BridgeError) :
    b.step fuel vm ≠ some (.error e) := by
  intro hstep
  rw [step_of_find h] at hstep
  obtain ⟨_, _, heq⟩ := Option.map_eq_some_iff.mp hstep
  cases heq

/-- A step that is answered is the step of a loaded machine. -/
theorem exists_of_step {fuel : Nat} {outcome : StepOutcome}
    (h : b.step fuel vm = some (.ok (outcome, b'))) :
    ∃ i i' world, b.find vm = .ok i ∧
      i.step b.hooks fuel b.world = some (outcome, i', world) ∧
      b' = { b.replace vm i' with world } := by
  cases hfind : b.find vm with
  | error e =>
    unfold step at h
    rw [hfind] at h
    cases h
  | ok i =>
    rw [step_of_find hfind] at h
    obtain ⟨⟨outcome, i', world⟩, hstep, heq⟩ := Option.map_eq_some_iff.mp h
    cases heq
    exact ⟨i, i', world, rfl, hstep, rfl⟩

/-- A machine that is put back is found again. -/
theorem find_replace {i' : Instance} (hfind : b.find vm = .ok i)
    (h : b'.instances = (b.replace vm i').instances) : b'.find vm = .ok i' := by
  obtain ⟨hlt, _⟩ := Array.getElem?_eq_some_iff.mp (getElem?_of_find hfind)
  apply find_of_instance?
  unfold instance?
  rw [h]
  exact Array.getElem?_setIfInBounds_self_of_lt hlt

/-- Putting a machine back changes no other one. -/
theorem getElem?_replace {i' j : Instance} {k : Nat}
    (h : b'.instances = (b.replace vm i').instances) (hj : b'.instances[k]? = some j) :
    (k = vm.index ∧ j = i') ∨ (k ≠ vm.index ∧ b.instances[k]? = some j) := by
  have hset : (b.instances.setIfInBounds vm.index i')[k]? = some j := by
    rw [h] at hj
    exact hj
  by_cases hk : k = vm.index
  · subst hk
    have hlt : vm.index < b.instances.size := by
      obtain ⟨hlt, _⟩ := Array.getElem?_eq_some_iff.mp hset
      rwa [Array.size_setIfInBounds] at hlt
    rw [Array.getElem?_setIfInBounds_self_of_lt hlt] at hset
    exact .inl ⟨rfl, (Option.some.inj hset).symm⟩
  · rw [Array.getElem?_setIfInBounds_ne (Ne.symm hk)] at hset
    exact .inr ⟨hk, hset⟩

/-- Putting an instance back leaves the instances of the other handles. -/
theorem instance?_replace_ne {i' : Instance} {other : Handle}
    (h : b'.instances = (b.replace vm i').instances) (hne : other ≠ vm) :
    b'.instance? other = b.instance? other := by
  have hinstances : b'.instances = b.instances.setIfInBounds vm.index i' := h
  unfold instance?
  rw [hinstances, Array.getElem?_setIfInBounds_ne (Handle.index_ne hne.symm)]

/-- A bridge with a descendant of one of its machines put back follows it. -/
theorem follows_replace {i' : Instance} (hfind : b.find vm = .ok i)
    (h : b'.instances = (b.replace vm i').instances) (hlead : i.machine.Descends σ i'.machine) :
    b.Follows b' := by
  intro k j hj
  rcases getElem?_replace h hj with ⟨rfl, rfl⟩ | ⟨_, hj⟩
  · exact .inl ⟨i, getElem?_of_find hfind, hlead⟩
  · exact .inl ⟨j, hj, .inl .refl⟩

/-- A change that leaves all machines as they are, except for the store of one of them. -/
inductive Touches (b b' : Bridge σ) : Prop where
  | nothing (hinstances : b'.instances = b.instances) (hmax : b'.maxVms = b.maxVms)
  | store {vm : Handle} {i : Instance} {s : Store Native} (hfind : b.find vm = .ok i)
      (hs : i.machine.store.HostChange s)
      (hinstances : b'.instances =
        (b.replace vm { i with machine := { i.machine with store := s } }).instances)
      (hmax : b'.maxVms = b.maxVms)

/-- An attempt to change the store of a machine touches nothing else. -/
theorem touches_updateStore {f : Store Native → Store Native}
    (hf : ∀ s, Store.HostChange s (f s)) : b.Touches (b.attempt (b.updateStore vm f)) := by
  unfold updateStore
  cases hfind : b.find vm with
  | error e => exact .nothing rfl rfl
  | ok i => exact .store hfind (hf _) rfl rfl

/-- A registration that succeeds binds the slot and defines a function in the machine. -/
theorem exists_of_registerHook {slot : Nat} {name : String}
    (h : b.registerHook vm slot name = .ok b') :
    ∃ i function hooks world, b.find vm = .ok i ∧ b.library.resolve name = .ok function ∧
      b.hooks.bind slot ⟨name, function⟩ b.world = .ok (hooks, world) ∧ b'.hooks = hooks ∧
      b'.instances = (b.replace vm { i with
        machine := i.machine.mapStore fun s => (s.define name (.hook slot vm)).1 }).instances ∧
      b'.maxVms = b.maxVms ∧ b'.limits = b.limits ∧ b'.library = b.library := by
  unfold registerHook at h
  cases hfind : b.instance? vm with
  | none =>
    rw [hfind] at h
    cases h
  | some i =>
    rw [hfind] at h
    dsimp only at h
    by_cases hslot : b.hooks.capacity ≤ slot
    · rw [if_pos hslot] at h
      cases h
    · rw [if_neg hslot] at h
      cases hfunction : b.library.resolve name with
      | error e =>
        rw [hfunction] at h
        cases h
      | ok function =>
        rw [hfunction] at h
        cases hbind : b.hooks.bind slot ⟨name, function⟩ b.world with
        | error e =>
          simp only [bind, Except.bind, hbind] at h
          cases h
        | ok bound =>
          simp only [bind, Except.bind, hbind] at h
          cases h
          exact ⟨i, function, bound.1, bound.2, find_of_instance? hfind, rfl, hbind, rfl, rfl, rfl,
            rfl, rfl⟩

/-- A hook is defined in one machine. -/
theorem touches_registerHook {slot : Nat} {name : String}
    (h : b.registerHook vm slot name = .ok b') : b.Touches b' := by
  obtain ⟨i, _, _, _, hfind, _, _, _, hinstances, hmax, _⟩ := exists_of_registerHook h
  exact .store hfind (.define name _) hinstances hmax

/-- Operations that neither load nor step nor unload machines. -/
theorem touches_after {fuel : Nat} {op : Operation σ} (hop : op.after fuel b = some b')
    (hminor : op.IsMinor) : b.Touches b' := by
  cases op with
  | load | step | destroyAll => exact hminor.elim
  | resetNeighbors vm =>
    cases hop
    exact touches_updateStore fun _ => .resetNeighbors
  | addNeighbor vm id position =>
    cases hop
    exact touches_updateStore fun _ => .addNeighbor _
  | setAbsolutePosition vm position =>
    cases hop
    exact touches_updateStore fun _ => .setPosition position
  | feedMessage vm sender payload =>
    cases hop
    exact touches_updateStore fun _ => .receive _
  | nextOutbound vm =>
    cases hop
    unfold nextOutbound
    cases hfind : b.find vm with
    | error e => exact .nothing rfl rfl
    | ok i => exact .store hfind .takeOutbound rfl rfl
  | installModule m =>
    cases hop
    exact .nothing rfl rfl
  | importModule name =>
    cases hop
    unfold importModule
    cases b.library.importModule name b.world with
    | error e => exact .nothing rfl rfl
    | ok imported => exact .nothing rfl rfl
  | registerHook vm slot name =>
    cases hop
    cases hresult : b.registerHook vm slot name with
    | error e => exact .nothing rfl rfl
    | ok b' => exact touches_registerHook hresult
  | registerInit =>
    cases hop
    unfold registerInit
    split
    · exact .nothing rfl rfl
    · split <;> exact .nothing rfl rfl
  | changeWorld w =>
    cases hop
    exact .nothing rfl rfl

/-- A load that succeeds has found room, a table and a program. -/
theorem exists_of_load {files : Files} {bytecodePath debugPath : String} {contextId : UInt16}
    {handle : Handle} (h : b.load files bytecodePath debugPath contextId = .ok (b', handle)) :
    ∃ program debug, b.vmCount < b.maxVms ∧ readDebug files debugPath = .ok debug ∧
      readProgram files bytecodePath = .ok program ∧
      (b', handle) = b.addInstance bytecodePath program debug contextId := by
  unfold load at h
  by_cases hfull : b.maxVms ≤ b.vmCount
  · rw [if_pos hfull] at h
    cases h
  · rw [if_neg hfull] at h
    cases hdebug : readDebug files debugPath with
    | error e =>
      rw [hdebug] at h
      cases h
    | ok debug =>
      cases hprogram : readProgram files bytecodePath with
      | error e =>
        rw [hdebug, hprogram] at h
        cases h
      | ok program =>
        rw [hdebug, hprogram] at h
        cases h
        exact ⟨program, debug, by omega, rfl, rfl, rfl⟩

/-- A program that is read comes from an image that is accepted. -/
theorem exists_of_readProgram {files : Files} {path : String} {program : Program}
    (h : readProgram files path = .ok program) :
    ∃ image, Program.ofBytes image = .ok program := by
  unfold readProgram at h
  split at h
  · cases h
  · split at h
    · cases h
    · rename_i image _ _ _ hread
      cases h
      exact ⟨image, hread⟩

/-- A machine that is loaded gets a new handle. -/
theorem follows_load {files : Files} {bytecodePath debugPath : String} {contextId : UInt16}
    {handle : Handle} (h : b.load files bytecodePath debugPath contextId = .ok (b', handle)) :
    b.Follows b' := by
  obtain ⟨program, debug, _, _, hprogram, hadd⟩ := exists_of_load h
  obtain ⟨image, himage⟩ := exists_of_readProgram hprogram
  cases hadd
  intro k i' hi'
  change (b.instances.push _)[k]? = some i' at hi'
  rw [Array.getElem?_push] at hi'
  split at hi'
  · rename_i hk
    cases hi'
    exact .inr ⟨by simp [hk], image, program, b.limits, contextId, himage, rfl⟩
  · exact .inl ⟨i', hi', .inl .refl⟩

/-- A change of one store by the host. -/
theorem Touches.follows (h : b.Touches b') : b.Follows b' := by
  cases h with
  | nothing hinstances _ => exact follows_of_eq hinstances
  | store hfind hs hinstances _ =>
    exact follows_replace hfind hinstances (.inl (.single (.change hs)))

/-- A step changes the machine that takes it and no other one. -/
theorem follows_step {fuel : Nat} {outcome : StepOutcome}
    (h : b.step fuel vm = some (.ok (outcome, b'))) : b.Follows b' := by
  obtain ⟨i, i', world, hfind, hstep, rfl⟩ := exists_of_step h
  obtain ⟨hready, hfaulted⟩ := Instance.leads_of_step hstep
  refine follows_replace hfind rfl ?_
  by_cases houtcome : outcome = .ready
  · exact .inr (hready houtcome)
  · exact .inl (hfaulted houtcome)

/-- Whatever the operation is, all machines after it have come from those before it or have just
been loaded. -/
theorem follows_after {fuel : Nat} {op : Operation σ} (hop : op.after fuel b = some b') :
    b.Follows b' := by
  cases op with
  | load files bytecodePath debugPath contextId =>
    cases hop
    cases hresult : b.load files bytecodePath debugPath contextId with
    | error e => exact follows_of_eq rfl
    | ok loaded => exact follows_load hresult
  | step vm =>
    obtain ⟨result, hresult, rfl⟩ := Option.map_eq_some_iff.mp hop
    match result with
    | .error e => exact follows_of_eq rfl
    | .ok (outcome, b') => exact follows_step hresult
  | destroyAll =>
    obtain ⟨result, hresult, rfl⟩ := Option.map_eq_some_iff.mp hop
    obtain ⟨inner, _, rfl⟩ := Option.map_eq_some_iff.mp hresult
    intro k i' hi'
    cases hi'
  | _ => exact (touches_after hop trivial).follows

/-- Every machine of a reachable bridge has been reached. -/
theorem Reachable.reached (h : b.Reachable) (hi : i ∈ b.instances) :
    Stage.Reached (σ := σ) (.idle i.machine) := by
  induction h generalizing i with
  | new maxVms hookCapacity limits host => cases Array.not_mem_empty i hi
  | after _ hop ih =>
    obtain ⟨k, hk⟩ := Array.mem_iff_getElem?.mp hi
    rcases follows_after hop k i hk with ⟨i₀, hi₀, hlead⟩ | ⟨_, hloaded⟩
    · exact (ih (Array.mem_of_getElem? hi₀)).descends hlead
    · obtain ⟨image, program, limits, contextId, himage, hmachine⟩ := hloaded
      rw [hmachine]
      exact .load himage limits contextId

end Bridge

section Underway

variable {hooks : HookTable σ} {m : Machine Native} {w : World σ}
  {e : Execution Native Traversal σ}

/-- The beginning of a call is one of the things an idle machine leads to. -/
theorem Machine.BeginsCall.leads {name : String} (h : m.BeginsCall w name e) :
    Stage.Leads (.idle m) (.busy e) := by
  obtain ⟨_, _, rfl⟩ := h
  exact .single (.call m w name)

/-- So is the beginning of a call to hear a message. -/
theorem Machine.BeginsHearing.leads (h : m.BeginsHearing hooks w e) :
    Stage.Leads (.idle m) (.busy e) := by
  induction h with
  | now hnext => exact .single (.hear hnext)
  | later hnext hcall _ ih => exact .head (.hear hnext) ((leads_run hcall).trans ih)

/-- The first part of a turn leads from the machine before it to the one after it. -/
theorem Instance.Begun.leads {i i' : Instance} {w' : World σ} (h : i.Begun hooks w i' w') :
    i.machine.Leads σ i'.machine := by
  rcases h with ⟨_, rfl, _⟩ | ⟨_, fuel, hbegin⟩
  · exact .refl
  · exact (leadsOn_begin i w).ok hbegin

/-- The executions of a turn lie on the life of the machine that takes it. -/
theorem Instance.BeginsTurn.leads {i : Instance} (h : i.BeginsTurn hooks w e) :
    Stage.Leads (.idle i.machine) (.busy e) := by
  cases h with
  | body _ => exact .single (.body _ w)
  | init _ hbody hcall => exact (leads_executeScript hbody).trans hcall.leads
  | hear hbegun _ hhear => exact hbegun.leads.trans hhear.leads
  | step hbegun hheard hcall =>
    exact hbegun.leads.trans ((leads_processInbound hheard).trans hcall.leads)

/-- An execution under way has been reached, from a machine of the bridge. -/
theorem Bridge.Underway.leads {b : Bridge σ} (h : b.Underway e) :
    ∃ i ∈ b.instances, Stage.Leads (.idle i.machine) (.busy e) := by
  cases h with
  | step hfind _ hbegin hpasses =>
    exact ⟨_, mem_of_find hfind, hbegin.leads.trans (leads_passes hpasses)⟩
  | destroy hinstances _ hbegin hpasses =>
    refine ⟨_, ?_, hbegin.leads.trans (leads_passes hpasses)⟩
    rw [← Array.mem_toList_iff, hinstances]
    exact List.mem_append_right _ List.mem_cons_self

/-- Every execution under way on a reachable bridge is reached. -/
theorem Bridge.Reachable.reached_underway {b : Bridge σ} (h : b.Reachable) (he : b.Underway e) :
    Stage.Reached (.busy e) := by
  obtain ⟨i, hi, hlead⟩ := he.leads
  exact (h.reached hi).leads hlead

end Underway

/-- A script whose body does nothing, and a debug-symbol table without entries. -/
def Files.smallest : Files := fun path =>
  if path = "script" then .ok [0x48, 0x49, 0x56, 0x45, 1, 0, 0, 1, 0, 0, 0, 0]
  else .ok [0x48, 0x44, 0x42, 0x47, 0, 0]

/-- A bridge into which the smallest script has been loaded. -/
def Bridge.smallest : Bridge Unit :=
  let b : Bridge Unit := .new 1 0 {} ()
  b.attempt ((b.load Files.smallest "script" "symbols" 7).map Prod.fst)

/-- The smallest bridge is reachable. -/
theorem Bridge.reachable_smallest : Bridge.smallest.Reachable := by
  have hnew : (Bridge.new 1 0 {} () : Bridge Unit).Reachable := .new 1 0 {} ()
  have hload : (Operation.load Files.smallest "script" "symbols" 7).after 0 (.new 1 0 {} ()) =
      some Bridge.smallest := rfl
  exact hnew.after hload

end Swarm
