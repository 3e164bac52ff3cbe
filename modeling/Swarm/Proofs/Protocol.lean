import Swarm.Proofs.Ledger

/-!
# The execution protocol

Whatever the operations are, no script is ever entered out of order, and what the
ledger says of a script is what has happened in its machine. A script that has
faulted stays as it is until it is unloaded, and unloading passes all scripts in
the order of their loading.
-/

namespace Swarm

variable {σ : Type}

namespace Progress

/-- The number of events before the body or `init` can be entered. -/
def wait : Progress → EntryPoint → Option Nat
  | .loaded, .body => some 1
  | .loaded, .init => some 2
  | .starting, .body => some 0
  | .starting, .init => some 1
  | .started, .init => some 0
  | _, _ => none

/-- The body and `init` are entered when there is nothing left to wait for. -/
theorem wait_eq_zero {p p' : Progress} {point : EntryPoint} {visit : Visit}
    (hpoint : point = .body ∨ point = .init) (h : p.next (.entered point visit) = some p') :
    p.wait point = some 0 := by
  rcases hpoint with rfl | rfl <;> cases p <;> first | rfl | cases h

/-- Every event before the entry is one more to wait for. -/
theorem wait_eq_succ {p p' : Progress} {event : Event} {point : EntryPoint} {k : Nat}
    (h : p.next event = some p') (hwait : p'.wait point = some k) :
    p.wait point = some (k + 1) := by
  cases event with
  | asked => cases p <;> cases h <;> cases point <;> cases hwait <;> rfl
  | entered entry visit =>
    cases p <;> cases entry <;> cases visit <;> cases h <;> cases point <;> cases hwait
    all_goals rfl

/-- The body is entered right after the first step has been asked for, and `init` right after the
body. -/
theorem wait_of_after {p p' : Progress} {events : List Event} {point : EntryPoint}
    {visit : Visit} {k : Nat} (h : p.after events = some p')
    (hpoint : point = .body ∨ point = .init) (hk : events[k]? = some (.entered point visit)) :
    p.wait point = some k := by
  induction events generalizing p k with
  | nil => cases hk
  | cons event rest ih =>
    unfold after at h
    rw [List.foldlM_cons] at h
    obtain ⟨p₁, hnext, hrest⟩ := Option.bind_eq_some_iff.mp h
    cases k with
    | zero =>
      cases hk
      exact wait_eq_zero hpoint hnext
    | succ k => exact wait_eq_succ hnext (ih hrest hk)

end Progress

namespace Instance

variable {i i' : Instance} (hooks : HookTable σ) (fuel : Nat)

/-- The script after its function `destroy` has been called; one that has faulted is left as it
is. -/
def dismiss (i : Instance) (w : World σ) : Option (Instance × World σ) :=
  if i.machine.isReady then
    (Machine.callGlobal (Native.system hooks) fuel "destroy" [] i.machine w).map
      fun ending => ({ i with machine := ending.machine }, ending.world)
  else some (i, w)

/-- What is reported of a script that has been dismissed. -/
def farewell (i : Instance) (w : World σ) : World σ :=
  let destroyed (w : World σ) := w.report .debug s!"{i.handle.text}: destroyed"
  if i.machine.isReady then destroyed w
  else
    let text := s!"{i.handle.text}: state at teardown\n{i.machine.dump}"
    destroyed ((w.report .debug text).report .error i.diagnosis)

/-- Dismiss scripts in their order. -/
def dismissEach : List Instance → World σ → Option (List Instance × World σ)
  | [], w => some ([], w)
  | i :: rest, w => do
    let (i, w) ← i.dismiss hooks fuel w
    let (rest, w) ← dismissEach rest (i.farewell w)
    return (i :: rest, w)

/-- The diagnoses of the scripts that have faulted, in their order. -/
def diagnoses (scripts : List Instance) : List String :=
  (scripts.filter fun i => !i.machine.isReady).map diagnosis

/-- Unloading a script is dismissing it; it is diagnosed if it has faulted by then. -/
theorem destroy_eq (i : Instance) (w : World σ) : i.destroy hooks fuel w =
    (i.dismiss hooks fuel w).map fun (i, w) =>
      (if i.machine.isReady then none else some i.diagnosis, i.farewell w) := by
  unfold destroy dismiss farewell
  split
  · cases Machine.callGlobal (Native.system hooks) fuel "destroy" [] i.machine w with
    | none => rfl
    | some ending =>
      simp only [Option.map_some, Option.bind_eq_bind, Option.bind_some]
      split <;> rfl
  · rename_i hfaulted
    simp only [Option.map_some, Option.bind_eq_bind, Option.bind_some, if_neg hfaulted]
    rfl

/-- Destroying scripts answers the diagnoses of those that are dismissed. -/
theorem destroyEach_eq (scripts : List Instance) (w : World σ) :
    destroyEach hooks fuel scripts w =
      (dismissEach hooks fuel scripts w).map fun (scripts, w) => (diagnoses scripts, w) := by
  induction scripts generalizing w with
  | nil => rfl
  | cons i rest ih =>
    unfold destroyEach dismissEach
    rw [destroy_eq]
    cases i.dismiss hooks fuel w with
    | none => rfl
    | some dismissed =>
      obtain ⟨i', w'⟩ := dismissed
      simp only [Option.map_some, Option.bind_eq_bind, Option.bind_some, ih]
      cases dismissEach hooks fuel rest (i'.farewell w') with
      | none => rfl
      | some ending =>
        simp only [Option.map_some, Option.bind_some, Option.pure_def, diagnoses, List.filter_cons]
        cases i'.machine.isReady <;> rfl

end Instance

/-- All records are in order. -/
def Ledger.InOrder (l : Ledger σ) : Prop :=
  ∀ r ∈ l.live ++ l.gone, (Progress.loaded.after r.events).isSome = true

/-- The same script with the same first fault. -/
structure Instance.SameFault (i i' : Instance) : Prop where
  same : i.SameScript i'
  fault : i'.machine.fault = i.machine.fault

/-- The diagnosis of a script that has faulted is about its first fault alone. -/
theorem Instance.SameFault.diagnosis_eq {i i' : Instance} (h : i.SameFault i')
    (hfaulted : i.machine.isReady = false) : i'.diagnosis = i.diagnosis := by
  obtain ⟨fault, hfault⟩ : ∃ fault, i.machine.fault = some fault := by
    cases hfault : i.machine.fault with
    | none => simp [Machine.isReady, hfault] at hfaulted
    | some fault => exact ⟨fault, rfl⟩
  have hfault' := h.fault.trans hfault
  simp only [diagnosis, faultLocation?, faultPc, faultMessage, hfault, hfault', h.same.script,
    h.same.debug]

/-- Machines with the same fault are ready alike. -/
theorem Instance.SameFault.isReady_eq {i i' : Instance} (h : i.SameFault i') :
    i'.machine.isReady = i.machine.isReady := by
  unfold Machine.isReady
  rw [h.fault]

namespace Bridge

variable {b b' : Bridge σ} {vm : Handle} {i : Instance}

/-- Operations have led from the one bridge to the other, and no script has been unloaded. -/
inductive Stays (b : Bridge σ) : Bridge σ → Prop where
  | refl : Stays b b
  | after {b' b'' : Bridge σ} (h : Stays b b') {fuel : Nat} {op : Operation σ}
      (hop : op.after fuel b' = some b'') (hkeep : op ≠ .destroyAll) : Stays b b''

/-- What a reachable bridge comes to is reachable. -/
theorem Reachable.stays (h : b.Reachable) (hstays : b.Stays b') : b'.Reachable := by
  induction hstays with
  | refl => exact h
  | after _ hop _ ih => exact ih.after hop

/-- The script of a machine that has faulted, after an operation that does not unload it. -/
theorem exists_sameFault_of_after (hfind : b.find vm = .ok i) (hfaulted : i.machine.isReady = false)
    {fuel : Nat} {op : Operation σ} (hop : op.after fuel b = some b') (hkeep : op ≠ .destroyAll) :
    ∃ i', b'.find vm = .ok i' ∧ i.SameFault i' := by
  have hsame : i.SameFault i := ⟨⟨rfl, rfl, rfl⟩, rfl⟩
  cases op with
  | load files bytecodePath debugPath contextId =>
    cases hop
    cases hload : b.load files bytecodePath debugPath contextId with
    | error e => exact ⟨i, hfind, hsame⟩
    | ok loaded =>
      obtain ⟨_, program, debug, journal, hloaded⟩ := gains_of_load hload
      refine ⟨i, find_of_instance? ?_, hsame⟩
      change loaded.1.instances[vm.index]? = some i
      obtain ⟨hlt, _⟩ := Array.getElem?_eq_some_iff.mp (getElem?_of_find hfind)
      rw [hloaded, Array.getElem?_push_lt hlt, ← Array.getElem?_eq_getElem hlt,
        getElem?_of_find hfind]
  | step other =>
    obtain ⟨result, hresult, rfl⟩ := Option.map_eq_some_iff.mp hop
    match result with
    | .error e => exact ⟨i, hfind, hsame⟩
    | .ok (outcome, b') =>
      obtain ⟨j, j', world, hother, hstep, hb'⟩ := exists_of_step hresult
      have hinstances : b'.instances = (b.replace other j').instances := by rw [hb']
      by_cases hvm : vm = other
      · subst hvm
        cases hfind.symm.trans hother
        -- A step would be the only way to enter the machine, and it is skipped.
        rw [Instance.step_of_faulted hfaulted] at hstep
        cases hstep
        exact ⟨_, find_replace hfind hinstances, ⟨rfl, rfl, rfl⟩, rfl⟩
      · exact ⟨i, (find_congr (instance?_replace_ne hinstances hvm)).trans hfind, hsame⟩
  | destroyAll => exact absurd rfl hkeep
  | _ =>
    cases touches_after hop trivial with
    | nothing hinstances _ =>
      refine ⟨i, (find_congr ?_).trans hfind, hsame⟩
      unfold instance?
      rw [hinstances]
    | @store other j s hother _ hinstances _ =>
      by_cases hvm : vm = other
      · subst hvm
        cases hfind.symm.trans hother
        exact ⟨_, find_replace hfind hinstances, ⟨rfl, rfl, rfl⟩, rfl⟩
      · exact ⟨i, (find_congr (instance?_replace_ne hinstances hvm)).trans hfind, hsame⟩

/-- A script that has faulted still has the same fault. -/
theorem Stays.exists_sameFault (hstays : b.Stays b') (hfind : b.find vm = .ok i)
    (hfaulted : i.machine.isReady = false) : ∃ i', b'.find vm = .ok i' ∧ i.SameFault i' := by
  induction hstays with
  | refl => exact ⟨i, hfind, ⟨rfl, rfl, rfl⟩, rfl⟩
  | after _ hop hkeep ih =>
    obtain ⟨i', hfind', hsame⟩ := ih
    have hfaulted' := hsame.isReady_eq.trans hfaulted
    obtain ⟨i'', hfind'', hsame'⟩ := exists_sameFault_of_after hfind' hfaulted' hop hkeep
    exact ⟨i'', hfind'', hsame.same.trans hsame'.same, hsame'.fault.trans hsame.fault⟩

/-- A step of a machine that has faulted changes nothing and gives the diagnosis. -/
theorem step_of_faulted (hb : b.Registered) (hfind : b.find vm = .ok i)
    (hfaulted : i.machine.isReady = false) (fuel : Nat) :
    b.step fuel vm = some (.ok (.faulted i.diagnosis,
      b.report .debug s!"{vm.text}: not ready, step skipped")) := by
  obtain ⟨hhandle, hi⟩ := hb.each _ i (getElem?_of_find hfind)
  have hstate : { i with state := .faulted } = i := by rw [← hi.faulted_iff.mpr hfaulted]
  have hself : b.instances.setIfInBounds vm.index i = b.instances := by
    obtain ⟨hlt, rfl⟩ := Array.getElem?_eq_some_iff.mp (getElem?_of_find hfind)
    unfold Array.setIfInBounds
    rw [dif_pos hlt, Array.set_getElem_self]
  rw [step_of_find hfind, Instance.step_of_faulted hfaulted, hstate, hhandle]
  simp only [Option.map_some, replace, hself]
  rfl

/-- What the operations so far have made of the scripts, and what is to come of those that have
faulted and of all of them when they are unloaded. -/
structure FollowsProtocol (b : Bridge σ) (l : Ledger σ) : Prop where
  /-- What is entered is recorded by watching the turns as they are. -/
  watched : ∀ fuel, (Watched.turn b.hooks fuel).work = Instance.turn b.hooks fuel
  /-- What happens is told of the turns as they are, and of the calls of `destroy`. -/
  traces : ∀ vm, b.Traces vm
  /-- What an operation enters in a machine is what happens there under the bindings of the
  operation, also if the operation has no answer. -/
  entered : ∀ fuel (op : Operation σ) vm i, b.find vm = .ok i → ∃ answer,
    i.machine.Entered b.hooks (op.events fuel b vm) (op.moments fuel b vm) answer ∧
      ((op.after fuel b).isSome → answer.isSome)
  /-- Every record leads from a machine that has just been loaded to the machine as it is now. -/
  agrees : l.Agrees b
  /-- Every record of an operation leads on, also if the operation has no answer. -/
  leads : ∀ fuel (op : Operation σ), ∀ r ∈ (op.record fuel b l).live ++ (op.record fuel b l).gone,
    ∃ answer, r.LeadsTo answer
  inOrder : ∀ fuel (op : Operation σ), (op.record fuel b l).InOrder
  /-- The body and `init` are entered by the first step only, at its beginning. -/
  first : ∀ fuel (op : Operation σ),
    ∀ r ∈ (op.record fuel b l).live ++ (op.record fuel b l).gone, ∀ (k : Nat) visit,
      (r.events[k]? = some (.entered .body visit) → k = 1) ∧
        (r.events[k]? = some (.entered .init visit) → k = 2)
  /-- A function that is not defined is skipped, with a report. -/
  skips : ∀ fuel name (m : Machine Native) w, m.isReady = true →
    (m.store.global (Utf8.encode name)).isNil = true →
      m.callGlobal (Native.system b.hooks) fuel name [] w =
        some ⟨.ok .nil, m, w.report .debug s!"function '{name}' is not defined, skipping"⟩
  /-- A step that ends in a fault leaves the machine stopped, and gives the diagnosis. -/
  faults : ∀ fuel vm diagnosis b', b.step fuel vm = some (.ok (.faulted diagnosis, b')) →
    b'.done vm = .ok true ∧ b'.explain vm = .ok diagnosis
  /-- A machine that has stopped stays stopped, with the same diagnosis, until it is unloaded; no
  step of it changes anything but the journal. -/
  stopped : ∀ vm, b.done vm = .ok true → ∃ diagnosis, ∀ b', b.Stays b' →
    b'.done vm = .ok true ∧ b'.explain vm = .ok diagnosis ∧
      ∀ fuel, b'.step fuel vm = some (.ok (.faulted diagnosis,
        b'.report .debug s!"{vm.text}: not ready, step skipped"))
  /-- All scripts are dismissed in the order of their loading, those that have faulted by then are
  diagnosed, and the registry is empty. -/
  destroyAll : ∀ fuel, b.destroyAll fuel =
    (Instance.dismissEach b.hooks fuel b.instances.toList b.world).map fun (scripts, world) =>
      (Instance.diagnoses scripts,
        { b with instances := #[], world := world.report .info "Script execution stopped." })

/-- Whatever the operations of the host are, scripts are entered in the order of the protocol, a
script that has faulted stays as it is, and all scripts are unloaded one after the other. -/
theorem Recorded.followsProtocol {l : Ledger σ} (h : b.Recorded l) : b.FollowsProtocol l := by
  have hb := h.reachable.registered
  have hrecord (fuel : Nat) (op : Operation σ) (r : Record σ)
      (hr : r ∈ (op.record fuel b l).live ++ (op.record fuel b l).gone) :=
    h.agrees.exists_after_record hb hr
  refine ⟨Watched.work_turn b.hooks, b.traces, ?_, h.agrees, ?_, ?_, ?_,
    fun _ _ _ _ => Machine.callGlobal_of_isNil, ?_, ?_, fun fuel => ?_⟩
  · intro fuel op vm i hfind
    obtain ⟨_, answer, _, hentered, hends⟩ := hb.entersInOrder hfind fuel op
    exact ⟨answer, hentered, fun hsome => (hends hsome).1⟩
  · intro fuel op r hr
    obtain ⟨_, answer, _, hleads⟩ := hrecord fuel op r hr
    exact ⟨answer, hleads⟩
  · intro fuel op r hr
    obtain ⟨p, _, hafter, _⟩ := hrecord fuel op r hr
    rw [hafter]
    rfl
  · intro fuel op r hr k visit
    obtain ⟨p, _, hafter, _⟩ := hrecord fuel op r hr
    constructor
    · intro hbody
      exact (Option.some.inj (Progress.wait_of_after hafter (.inl rfl) hbody)).symm
    · intro hinit
      exact (Option.some.inj (Progress.wait_of_after hafter (.inr rfl) hinit)).symm
  · intro fuel vm diagnosis b' hanswer
    obtain ⟨i, i', world, hfind, hstep, hb'⟩ := exists_of_step hanswer
    have hfind' : b'.find vm = .ok i' := find_replace hfind (by rw [hb'])
    obtain ⟨_, _, hends⟩ := (hb.consistent i (mem_of_find hfind)).step b.hooks fuel b.world
    obtain ⟨_, _, _, houtcome⟩ := hends _ _ _ hstep
    obtain ⟨hfaulted, rfl⟩ := (i'.outcome_eq_faulted_iff diagnosis).mp houtcome.symm
    rw [done_eq hfind', explain_eq hfind', hfaulted]
    exact ⟨rfl, rfl⟩
  · intro vm hdone
    cases hfind : b.find vm with
    | error e => simp [done, hfind, bind, Except.bind] at hdone
    | ok i =>
      have hfaulted : i.machine.isReady = false := by
        rw [done_eq hfind] at hdone
        simpa using hdone
      refine ⟨i.diagnosis, fun b' hstays => ?_⟩
      obtain ⟨i', hfind', hsame⟩ := hstays.exists_sameFault hfind hfaulted
      have hfaulted' := hsame.isReady_eq.trans hfaulted
      rw [done_eq hfind', explain_eq hfind', hfaulted', ← hsame.diagnosis_eq hfaulted]
      have hb' := (h.reachable.stays hstays).registered
      exact ⟨rfl, rfl, step_of_faulted hb' hfind' hfaulted'⟩
  · unfold destroyAll
    rw [Instance.destroyEach_eq, Option.map_map]
    rfl

end Bridge

/-- A script that defines `init`, `step`, `destroy` and a listener, which fails unless the sender is
0; a script that defines nothing; and a debug-symbol table without entries. -/
def Files.parting : Files := fun path =>
  if path = "script" then .ok [0x48, 0x49, 0x56, 0x45, 1, 4, 0, 4, 0, 0x69, 0x6e, 0x69, 0x74, 4, 0,
    0x73, 0x74, 0x65, 0x70, 7, 0, 0x64, 0x65, 0x73, 0x74, 0x72, 0x6f, 0x79, 6, 0, 0x6c, 0x69, 0x73,
    0x74, 0x65, 0x6e, 51, 0, 0, 0, 6, 36, 0, 0, 0, 13, 0, 0, 6, 37, 0, 0, 0, 13, 1, 0, 6, 38, 0, 0,
    0, 13, 2, 0, 12, 3, 0, 6, 39, 0, 0, 0, 16, 1, 9, 0, 17, 17, 17, 14, 1, 0, 20, 50, 0, 0, 0, 2,
    27, 9, 17]
  else if path = "bare" then .ok [0x48, 0x49, 0x56, 0x45, 1, 0, 0, 1, 0, 0, 0, 0]
  else .ok [0x48, 0x44, 0x42, 0x47, 0, 0]

namespace Bridge

/-- Two machines run the script and one the bare one. Of three messages the first machine hears two
in its second step and fails when it hears the second; then it is asked for another step. -/
def partingOperations : List (Operation Unit) :=
  [.load Files.parting "script" "symbols" 7, .load Files.parting "script" "symbols" 8,
    .load Files.parting "bare" "symbols" 9, .step ⟨0⟩, .step ⟨1⟩, .step ⟨2⟩,
    .feedMessage ⟨0⟩ 0 [1], .feedMessage ⟨0⟩ 3 [2], .feedMessage ⟨0⟩ 0 [3], .step ⟨0⟩, .step ⟨1⟩,
    .step ⟨0⟩]

/-- What has been entered when all three machines have been unloaded. -/
def partingEvents : List (List Event) :=
  [[.asked, .entered .body .returned, .entered .init .returned, .entered .step .returned,
      .asked, .entered .listener .returned, .entered .listener .faulted, .asked],
    [.asked, .entered .body .returned, .entered .init .returned, .entered .step .returned,
      .asked, .entered .step .returned, .entered .destroy .returned],
    [.asked, .entered .body .returned, .entered .init .skipped, .entered .step .skipped,
      .entered .destroy .skipped]]

/-- The first machine fails when it hears a message, and is not entered any more; the others are
dismissed when everything is unloaded, one by a call of `destroy`. -/
theorem followsProtocol_parting : ∃ (b : Bridge Unit) (l : Ledger Unit), b.Recorded l ∧
    b.done ⟨0⟩ = .ok true ∧
    (Operation.destroyAll.record 20 b l).gone.map Record.events = partingEvents ∧
    b.FollowsProtocol l := by
  let start : Bridge Unit := .new 3 0 {} ()
  have hcheck : (Operation.afterAll 20 start partingOperations).any (fun b => decide
      ((b.done ⟨0⟩).toOption = some true ∧ (Operation.destroyAll.record 20 b
        (Operation.recordAll 20 start {} partingOperations)).gone.map Record.events =
          partingEvents)) = true := by decide +kernel
  obtain ⟨b, hops, hat⟩ := (Option.any_eq_true _ _).mp hcheck
  obtain ⟨hdone, hgone⟩ := of_decide_eq_true hat
  have hrecorded := (Recorded.new 3 0 {} ()).afterAll hops
  refine ⟨b, _, hrecorded, ?_, hgone, Recorded.followsProtocol hrecorded⟩
  cases hstopped : b.done ⟨0⟩ with
  | error e =>
    rw [hstopped] at hdone
    cases hdone
  | ok stopped =>
    rw [hstopped] at hdone
    cases hdone
    rfl

end Bridge

end Swarm
