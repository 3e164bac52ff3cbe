import Swarm.Proofs.Collection
import Swarm.Proofs.Wiring

/-!
# Calls of hooks are dispatched

Whenever a script calls a closure that a registration has installed, the call
reaches what was bound to the slot most recently, once, on behalf of the machine
of the script. The result is read back by the host as long as the script keeps it
in a global variable, whatever strings are released in the meantime; a failure is
the fault of this machine alone.
-/

namespace Swarm

variable {σ : Type}

section Reading

variable {m m' : Machine Native} {v : Value} {r : HostValue}

/-- A global variable has the value. -/
def Machine.HasGlobal (m : Machine Native) (v : Value) : Prop :=
  ∃ id : StringId, m.store.globals[id]? = some v

/-- A string that is the value of a global variable is needed. -/
theorem Machine.HasGlobal.needs {id : StringId} (h : m.HasGlobal (.str id)) : m.Needs id := by
  obtain ⟨other, hother⟩ := h
  exact needs_of_global hother .refl

/-- Neither a release of strings nor the host takes away what a global variable has. -/
theorem Machine.Becomes.presents (h : m.Becomes m') (hm : m.Sound) (hr : m.store.Presents v r)
    (hv : m'.HasGlobal v) : m'.store.Presents v r := by
  cases h with
  | same => exact hr
  | released =>
    refine hr.mono fun id bytes hid hbytes => ?_
    subst hid
    exact (Machine.stores_released_iff hm.store.consistent).mpr ⟨hbytes, hv.needs⟩
  | changed hs =>
    exact hr.mono fun id bytes _ hbytes => (hm.store.hostChange hs).grows.stores id bytes hbytes

namespace Bridge

variable {b b' : Bridge σ} {vm : Handle} {i i' : Instance}

/-- From the one bridge to the other a global variable of the machine always has the value, and the
machine is not unloaded. -/
inductive Keeps (vm : Handle) (v : Value) (b : Bridge σ) : Bridge σ → Prop where
  | refl {i : Instance} (hfind : b.find vm = .ok i) (hv : i.machine.HasGlobal v) : Keeps vm v b b
  | after {b' b'' : Bridge σ} {i : Instance} (h : Keeps vm v b b') {fuel : Nat} {op : Operation σ}
      (hop : op.after fuel b' = some b'') (hkeep : op ≠ .destroyAll) (hfind : b''.find vm = .ok i)
      (hv : i.machine.HasGlobal v) : Keeps vm v b b''

/-- What the host reads of the value stays the same. -/
theorem Keeps.presents (h : b.Keeps vm v b') (hb : b.Reachable)
    (hr : ∀ i, b.find vm = .ok i → i.machine.HasGlobal v → i.machine.store.Presents v r) :
    b'.Reachable ∧ ∃ i', b'.find vm = .ok i' ∧ i'.machine.store.Presents v r := by
  induction h with
  | refl hfind hv => exact ⟨hb, _, hfind, hr _ hfind hv⟩
  | @after b' b'' i' _ fuel op hop hkeep hfind' hv ih =>
    obtain ⟨hb', i, hfind, hpresents⟩ := ih
    refine ⟨hb'.after hop, i', hfind', hpresents.mono fun id bytes hid hbytes => ?_⟩
    subst hid
    exact hb'.stores_after hop hfind hfind' hbytes hv.needs

/-- The host reads the global variables that have the value. -/
theorem global_of_presents {name : String} (hfind : b.find vm = .ok i)
    (hr : i.machine.store.Presents v r) (hv : b.globalValue vm name = v) :
    b.global vm name = .ok r := by
  unfold globalValue at hv
  unfold global
  rw [hfind] at hv ⊢
  rw [← hr.reads, ← hv]
  rfl

end Bridge

end Reading

/-- What is the case when an execution under way in a machine takes a step. -/
structure Instance.Passes (hooks : HookTable σ) (i : Instance)
    (e e' : Execution Native Traversal σ) : Prop where
  next : e' = e.step (Native.system hooks)
  sound : e.machine.Sound
  tidy : e.Tidy RuntimeError.IsBound
  natives : e.machine.store.natives = i.machine.store.natives
  natives' : e'.machine.store.natives = i.machine.store.natives
  tidy' : e'.Tidy RuntimeError.IsBound
  sound' : (Stage.busy e').Sound

namespace Bridge

open Stage

variable {b b' : Bridge σ} {wiring : Wiring σ} {vm : Handle} {fuel : Nat} {op : Operation σ}
  {e e' : Execution Native Traversal σ} {i : Instance}

/-- Steps on a path from a loaded machine. -/
theorem Wired.passes (h : b.Wired wiring) (hfind : b.find vm = .ok i) {moments : List (Moment σ)}
    {t : Stage σ} (hpath : Path b.hooks (.idle i.machine) moments t)
    (hmem : .works e e' ∈ moments) : i.Passes b.hooks e e' := by
  have hi := mem_of_find hfind
  have hallowed (error : RuntimeError) : ¬error.IsRaised → error.IsBound :=
    RuntimeError.isBound_of_not_isRaised
  obtain ⟨_, _, _, hbefore, rfl, _⟩ := hpath.split hmem
  obtain ⟨hsound, _⟩ := hbefore.sound (h.reachable.sound hi)
  obtain ⟨htidy, hexchanges⟩ :=
    hbefore.exchanges hallowed (h.agrees.tidy i hi) (h.agrees.failsAs i hi)
  have hfails := (h.agrees.failsAs i hi).congr hexchanges.natives
  obtain ⟨htidy', hexchanges'⟩ := Execution.exchanges_step hallowed htidy hfails
  have hmove : Moves b.hooks (.busy e) _ _ := .step e
  exact ⟨rfl, hsound.machine.sound, htidy, hexchanges.natives,
    hexchanges'.natives.trans hexchanges.natives, htidy', (hmove.sound hsound).1⟩

/-- Every step during an operation is taken in the middle of the execution of a loaded machine. -/
theorem Wired.exists_passes (h : b.Wired wiring) (hmem : .works e e' ∈ op.moments fuel b vm) :
    ∃ i, b.find vm = .ok i ∧ i.Passes b.hooks e e' := by
  cases hfind : b.find vm with
  | error error =>
    rw [moments_of_error hfind] at hmem
    cases hmem
  | ok i =>
    obtain ⟨t, hpath, _⟩ := exists_path_moments hfind fuel op
    exact ⟨i, rfl, h.passes hfind hpath hmem⟩

/-- In an operation that has an answer every execution goes on until it is left. -/
theorem exists_next_step (hfind : b.find vm = .ok i) (hmem : .works e e' ∈ op.moments fuel b vm)
    (he' : ∀ result, e'.phase ≠ .leaving result) (hanswer : (op.after fuel b).isSome) :
    ∃ before after, op.moments fuel b vm =
      before ++ .works e e' :: .works e' (e'.step (Native.system b.hooks)) :: after := by
  obtain ⟨t, hpath, hends⟩ := exists_path_moments hfind fuel op
  obtain ⟨m, rfl⟩ := hends hanswer
  obtain ⟨before, _, hsplit, _, _, hafter⟩ := hpath.split hmem
  obtain ⟨after, rfl, _⟩ := hafter.next_step he'
  exact ⟨before, after, hsplit⟩

/-- What comes of a call of a hook on behalf of the machine with the handle. -/
structure Concludes (b : Bridge σ) (fuel : Nat) (op : Operation σ) (vm : Handle) (hook : Hook σ)
    (call : HookCall) (e e' : Execution Native Traversal σ) : Prop where
  /-- The host reads the result as long as the script keeps it in a global variable. -/
  reads : ∀ r w v, hook.function call e.world = (.ok r, w) → e.machine.Returns v e'.machine →
    ∀ b' b'' name, op.after fuel b = some b' → b'.Keeps vm v b'' →
      b''.globalValue vm name = v → b''.global vm name = .ok r.received
  /-- A failure is the fault of the machine and concerns no other one. -/
  faults : ∀ message w, hook.function call e.world = (.error message, w) → op = .step vm →
    ∀ outcome b', b.step fuel vm = some (.ok (outcome, b')) →
      ∃ i', b'.find vm = .ok i' ∧ outcome = .faulted i'.diagnosis ∧
        i'.machine.fault = some ⟨e.callSite, .raised s!"hook '{hook.name}': {message}"⟩ ∧
        ∀ other, other ≠ vm → b'.find other = b.find other

/-- The result of a hook is read as long as it is kept. -/
theorem Wired.global_of_returns (h : b.Wired wiring) (hmem : .works e e' ∈ op.moments fuel b vm)
    {v : Value} {r : HostValue} (hr : e'.machine.store.Presents v r)
    (hop : op.after fuel b = some b') {b'' : Bridge σ} (hkeeps : b'.Keeps vm v b'') {name : String}
    (hv : b''.globalValue vm name = v) : b''.global vm name = .ok r := by
  have hfirst (i' : Instance) (hfind' : b'.find vm = .ok i') (hglobal : i'.machine.HasGlobal v) :
      i'.machine.store.Presents v r := by
    rcases exists_path_of_after hop hfind' with ⟨i, m, hfind, hpath, hbecomes⟩ | ⟨⟨_, hnone⟩, _⟩
    · -- The strings of the machine in which the hook has returned are there until the release.
      obtain ⟨_, _, _, _, _, hafter⟩ := hpath.split hmem
      obtain ⟨hm, hgrows⟩ := hafter.sound (h.passes hfind hpath hmem).sound'
      exact hbecomes.presents hm (hr.mono fun id bytes _ => hgrows.store.stores id bytes) hglobal
    · rw [moments_of_error hnone] at hmem
      cases hmem
  obtain ⟨_, i, hfind, hpresents⟩ := hkeeps.presents (h.reachable.after hop) hfirst
  exact global_of_presents hfind hpresents hv

/-- The first fault of a machine is that of the step. -/
theorem Wired.fault_of_step (h : b.Wired wiring)
    (hmem : .works e e' ∈ (Operation.step vm).moments fuel b vm) {f : Fault}
    (hf : e'.machine.fault = some f) {outcome : StepOutcome}
    (hstep : b.step fuel vm = some (.ok (outcome, b'))) :
    ∃ i', b'.find vm = .ok i' ∧ outcome = .faulted i'.diagnosis ∧ i'.machine.fault = some f ∧
      ∀ other, other ≠ vm → b'.find other = b.find other := by
  obtain ⟨i, i', world, hfind, hturn, hb'⟩ := exists_of_step hstep
  have hinstances : b'.instances = (b.replace vm i').instances := by rw [hb']
  obtain ⟨m, hpath, hmachine⟩ := Instance.path_of_step hturn
  rw [moments_step hfind] at hmem
  have hi := mem_of_find hfind
  have hpasses := h.passes hfind hpath hmem
  obtain ⟨_, _, _, _, _, hafter⟩ := hpath.split hmem
  have hexchanges := (hafter.exchanges (fun _ => RuntimeError.isBound_of_not_isRaised) hpasses.tidy'
    ((h.agrees.failsAs i hi).congr hpasses.natives')).2
  have hfault : i'.machine.fault = some f := by
    rw [hmachine, ← hexchanges.fault f hf]
    split <;> rfl
  obtain ⟨_, _, hends⟩ := (h.reachable.registered.consistent i hi).step b.hooks fuel b.world
  obtain ⟨_, _, _, houtcome⟩ := hends _ _ _ hturn
  have hready : i'.machine.isReady = false := by
    unfold Machine.isReady
    rw [hfault]
    rfl
  refine ⟨i', find_replace hfind hinstances, ?_, hfault, fun other hne =>
    find_congr (instance?_replace_ne hinstances hne)⟩
  rw [houtcome, Instance.outcome, hready]
  rfl

/-- A call of a hook on a wired bridge comes to its conclusion. -/
theorem Wired.concludes (h : b.Wired wiring) {hook : Hook σ} {call : HookCall}
    (henters : e.EntersHook b.hooks hook call e')
    (hmem : (op.after fuel b).isSome → .works e e' ∈ op.moments fuel b vm) :
    b.Concludes fuel op vm hook call e e' where
  reads r w v hok hreturns b' b'' name hop hkeeps hv := by
    obtain ⟨v', _, hreturns', hpresents⟩ := henters.returns r w hok
    rw [← hreturns.unique hreturns'] at hpresents
    exact h.global_of_returns (hmem (by rw [hop]; rfl)) hpresents hop hkeeps hv
  faults message w herror hop outcome b' hstep := by
    subst hop
    have hanswer : ((Operation.step vm).after fuel b).isSome := by
      change ((b.step fuel vm).map _).isSome
      rw [hstep]
      rfl
    exact h.fault_of_step (hmem hanswer) (henters.fails message w herror).2 hstep

/-- How calls of hooks are dispatched. -/
structure Dispatches (b : Bridge σ) (wiring : Wiring σ) : Prop where
  traces : ∀ vm, b.Traces vm
  /-- A step changes the state of the host by one call of a hook or not at all. -/
  host : ∀ e : Execution Native Traversal σ, (e.step (Native.system b.hooks)).world.host =
    match e.hostCall? b.hooks with
    | none => e.world.host
    | some (hook, call) => (hook.function call e.world).2.host
  /-- A script calls an installed closure. -/
  calls : ∀ fuel (op : Operation σ) (c : Installed), c ∈ wiring.installed →
    ∀ e below arguments,
      .works e (e.step (Native.system b.hooks)) ∈ op.moments fuel b c.vm →
      e.Calls below c.closure arguments →
      ∃ hook e₁ e₂, wiring.latest c.slot = some hook ∧
        let call : HookCall := ⟨some c.vm, arguments.map e.machine.store.toHost⟩
        e.CallsHook b.hooks below hook call e₁ e₂ ∧ b.Concludes fuel op c.vm hook call e₁ e₂ ∧
        (∀ v ∈ arguments, e.machine.store.Presents v (e.machine.store.toHost v)) ∧
        ((op.after fuel b).isSome → ∃ before after,
          op.moments fuel b c.vm = before ++ .works e e₁ :: .works e₁ e₂ :: after)
  /-- The host or a native function calls an installed closure. -/
  begins : ∀ fuel (op : Operation σ) (c : Installed), c ∈ wiring.installed →
    ∀ e e', .works e e' ∈ op.moments fuel b c.vm →
    ∀ (m : Machine Native) (w : World σ) (waiting : List (Suspended Traversal)) arguments,
      m.store.natives = e.machine.store.natives → m.isReady = true →
      m.frames.size < m.limits.maxCallDepth →
      m.stack.size + arguments.length < m.limits.maxStack →
      ∃ m', Execution.startCall m w waiting c.closure arguments =
          ⟨m', w, ⟨m.frames.size, .call⟩, .entering (.hook c.slot c.vm) none, waiting⟩ ∧
        m'.arguments = arguments ∧ m'.store = m.store
  /-- The function of a hook begins, whoever has called it. -/
  entered : ∀ fuel (op : Operation σ) vm e e', .works e e' ∈ op.moments fuel b vm →
    ∀ slot owner origin, e.phase = .entering (.hook slot owner) origin →
      owner = vm ∧ ∃ hook, wiring.latest slot = some hook ∧
        let call : HookCall := ⟨some vm, e.machine.arguments.map e.machine.store.toHost⟩
        e.EntersHook b.hooks hook call e' ∧ b.Concludes fuel op vm hook call e e'
  /-- No slot that is called is without a binding. -/
  bound : ∀ fuel (op : Operation σ) vm e e', .works e e' ∈ op.moments fuel b vm →
    ∀ error, e'.phase = .leaving (.error error) → error.IsBound
  faults : ∀ i ∈ b.instances, ∀ f, i.machine.fault = some f → f.error.IsBound

/-- An execution under way that begins the function of a hook calls what is bound to the slot. -/
theorem Wired.entersHook (h : b.Wired wiring) (hfind : b.find vm = .ok i)
    (hpasses : i.Passes b.hooks e e') {slot : Nat} {owner : Handle} {origin : Option Nat}
    (hphase : e.phase = .entering (.hook slot owner) origin) :
    owner = vm ∧ ∃ hook, wiring.latest slot = some hook ∧ e.EntersHook b.hooks hook
      ⟨some vm, e.machine.arguments.map e.machine.store.toHost⟩ e' := by
  obtain ⟨hoffers, hroom⟩ := hpasses.tidy.room _ _ hphase
  unfold Machine.Offers at hoffers
  rw [hpasses.natives] at hoffers
  obtain ⟨rfl, hbound⟩ := h.agrees.owned vm i hfind slot owner hoffers
  obtain ⟨hook, hhook⟩ := Option.isSome_iff_exists.mp hbound
  have hready : e.machine.isReady = true := hpasses.tidy.ready (by simp [hphase])
  rw [hpasses.next]
  exact ⟨rfl, hook, (h.agrees.latest slot).symm.trans hhook,
    Execution.entersHook hphase hhook hready hroom hpasses.sound.store.consistent⟩

/-- Whatever the operations of the host are, calls of hooks are dispatched to what was bound to
their slots most recently. -/
theorem Wired.dispatches (h : b.Wired wiring) : b.Dispatches wiring where
  traces vm := b.traces vm
  host e := e.host_step b.hooks
  calls fuel op c hc e below arguments hmem hcalls := by
    obtain ⟨i, k, hfind, hclosure, hnative⟩ := h.agrees.installed c hc
    obtain ⟨t, hpath, _⟩ := exists_path_moments hfind fuel op
    have hpasses := h.passes hfind hpath hmem
    rw [hclosure] at hcalls
    obtain ⟨_, hbound⟩ :=
      h.agrees.owned c.vm i hfind c.slot c.vm ⟨c.name, Array.mem_of_getElem? hnative⟩
    obtain ⟨hook, hhook⟩ := Option.isSome_iff_exists.mp hbound
    rw [← hpasses.natives] at hnative
    obtain ⟨hphase, hcall⟩ := hcalls.callsHook hnative hhook hpasses.sound hpasses.tidy
    have htold := exists_next_step hfind hmem fun result => by
      rw [hphase]
      nofun
    refine ⟨hook, _, _, (h.agrees.latest c.slot).symm.trans hhook, hcall,
      h.concludes hcall.enters fun hanswer => ?_, fun v hv => ⟨rfl, fun id hid => ?_⟩, htold⟩
    · obtain ⟨before, after, hsplit⟩ := htold hanswer
      rw [hsplit]
      simp
    · have hmem : v ∈ e.machine.stack := by
        rw [← Array.mem_toList_iff, hcalls.stack]
        exact List.mem_append_right _ (List.mem_cons_of_mem _ hv)
      subst hid
      exact hpasses.sound.stack _ hmem _ .refl
  begins fuel op c hc e e' hmem m w waiting arguments hnatives hready hadmitted hroom := by
    obtain ⟨i, k, hfind, hclosure, hnative⟩ := h.agrees.installed c hc
    obtain ⟨t, hpath, _⟩ := exists_path_moments hfind fuel op
    rw [← (h.passes hfind hpath hmem).natives, ← hnatives] at hnative
    rw [hclosure]
    exact Execution.startCall_eq_of_native hready hadmitted hroom hnative w waiting
  entered fuel op vm e e' hmem slot owner origin hphase := by
    obtain ⟨i, hfind, hpasses⟩ := h.exists_passes hmem
    obtain ⟨howner, hook, hlatest, henters⟩ := h.entersHook hfind hpasses hphase
    exact ⟨howner, hook, hlatest, henters, h.concludes henters fun _ => hmem⟩
  bound fuel op vm e e' hmem error hphase := by
    obtain ⟨i, _, hpasses⟩ := h.exists_passes hmem
    exact hpasses.tidy'.error error hphase
  faults i hi := (h.agrees.tidy i hi).fault

end Bridge

/-- A script that calls `query` with 21 and keeps the result, and a debug-symbol table without
entries. -/
def Files.query : Files := fun path =>
  if path = "script" then .ok [0x48, 0x49, 0x56, 0x45, 1, 2, 0, 5, 0, 0x71, 0x75, 0x65, 0x72, 0x79,
    6, 0, 0x72, 0x65, 0x73, 0x75, 0x6c, 0x74, 14, 0, 0, 0, 12, 0, 0, 3, 21, 0, 0, 0, 16, 1, 13, 1,
    0, 0]
  else .ok [0x48, 0x44, 0x42, 0x47, 0, 0]

/-- A module with two functions. The one fails, but notes who has called it and with how many
arguments; the other one succeeds and notes nothing. -/
def HostModule.sample : HostModule (List (Option Handle × Nat)) :=
  let refuse : HostFunction (List (Option Handle × Nat)) := fun call w =>
    (.error "refused", { w with host := w.host ++ [(call.vm, call.arguments.length)] })
  let query : HostFunction (List (Option Handle × Nat)) := fun _ w => (.ok .none, w)
  (add ⟨"swarm", {}⟩ "refuse" (.function refuse)).add "query" (.function query)

namespace Bridge

/-- A bridge with two scripts. The slot of the first one is bound again for the second one. -/
def rebound : Bridge (List (Option Handle × Nat)) :=
  let b : Bridge (List (Option Handle × Nat)) := (Bridge.new 2 1 {} []).installModule .sample
  let b := b.attempt (b.importModule "swarm")
  let b := b.attempt ((b.load Files.query "script" "symbols" 7).map Prod.fst)
  let b := b.attempt ((b.load Files.query "script" "symbols" 8).map Prod.fst)
  let b := b.attempt (b.registerHook ⟨0⟩ 0 "query")
  b.attempt (b.registerHook ⟨1⟩ 0 "refuse")

/-- The call of the first script reaches what was bound for the second one, once and on behalf of
the first one, and fails. -/
theorem dispatches_rebound : ∃ wiring, rebound.Wired wiring ∧
    (wiring.latest 0).map Hook.name = some "refuse" ∧
      wiring.installed.map Installed.vm = [⟨1⟩, ⟨0⟩] ∧
      (((Operation.step ⟨0⟩).after 9 rebound).map fun b' => (b'.world.host,
        (b'.find ⟨0⟩).map (·.machine.fault))) =
          some ([(some ⟨0⟩, 1)], .ok (some ⟨8, .raised "hook 'refuse': refused"⟩)) ∧
      rebound.Dispatches wiring := by
  have hnew : (Bridge.new 2 1 {} [] : Bridge (List (Option Handle × Nat))).Wired {} :=
    .new 2 1 {} []
  have hinstall := hnew.after (show (Operation.installModule .sample).after 0 _ = some _ from rfl)
  have himport := hinstall.after (show (Operation.importModule "swarm").after 0 _ = some _ from rfl)
  let load (contextId : UInt16) : Operation (List (Option Handle × Nat)) :=
    .load Files.query "script" "symbols" contextId
  have hfirst := himport.after (show (load 7).after 0 _ = some _ from rfl)
  have hsecond := hfirst.after (show (load 8).after 0 _ = some _ from rfl)
  let register (vm : Handle) (name : String) : Operation (List (Option Handle × Nat)) :=
    .registerHook vm 0 name
  have hquery := hsecond.after (show (register ⟨0⟩ "query").after 0 _ = some _ from rfl)
  have hrefuse := hquery.after (show (register ⟨1⟩ "refuse").after 0 _ = some _ from rfl)
  exact ⟨_, hrefuse, by decide +kernel, by decide +kernel, by decide +kernel,
    Wired.dispatches hrefuse⟩

end Bridge

end Swarm
