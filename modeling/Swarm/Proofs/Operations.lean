import Swarm.Proofs.Exchanges
import Swarm.Proofs.Registry

/-!
# What happens during operations

Every operation has its moments for every machine: a step those of its turn, the
unloading of all machines those of the functions `destroy`, and any other
operation none. They are a path from the machine before the operation; the machine
after it is where the path ends, with its strings released or its store changed
by the host at most.
-/

namespace Swarm

variable {σ : Type}

namespace Instance

variable (hooks : HookTable σ) (fuel : Nat)

/-- What happens in a step of the script. -/
def stepMoments (i : Instance) (w : World σ) : List (Moment σ) :=
  if i.machine.isReady then (Told.turn hooks fuel (i, w)).2 else []

/-- What happens when scripts are unloaded, script by script. Behind a script whose function
`destroy` has no answer nothing happens any more. -/
def destroyEachMoments : List Instance → World σ → List (List (Moment σ))
  | [], _ => []
  | i :: rest, w => (i.machine.tellGlobal hooks fuel "destroy" w).2 ::
    match i.destroy hooks fuel w with
    | none => []
    | some (_, w) => destroyEachMoments rest w

/-- What is told of a script that is destroyed are the moments of calling its `destroy`. -/
theorem exists_of_destroyEachMoments {scripts : List Instance} {w : World σ} {k : Nat}
    {moments : List (Moment σ)}
    (h : (destroyEachMoments hooks fuel scripts w)[k]? = some moments) :
    ∃ i w', scripts[k]? = some i ∧
      moments = (i.machine.tellGlobal hooks fuel "destroy" w').2 ∧
      ((destroyEach hooks fuel scripts w).isSome → (i.destroy hooks fuel w').isSome) := by
  induction scripts generalizing w k with
  | nil => cases h
  | cons i rest ih =>
    unfold destroyEachMoments at h
    unfold destroyEach
    cases hdestroy : i.destroy hooks fuel w with
    | none =>
      rw [hdestroy] at h
      cases k with
      | zero =>
        cases h
        exact ⟨i, w, rfl, rfl, nofun⟩
      | succ k => cases h
    | some destroyed =>
      rw [hdestroy] at h
      cases k with
      | zero =>
        cases h
        exact ⟨i, w, rfl, rfl, fun _ => by rw [hdestroy]; rfl⟩
      | succ k =>
        obtain ⟨j, w', hj, hmoments, hsome⟩ := ih h
        refine ⟨j, w', hj, hmoments, fun hall => hsome ?_⟩
        cases hrest : destroyEach hooks fuel rest destroyed.2 with
        | none => simp [hrest] at hall
        | some _ => rfl

/-- Unloading a script has an answer only if the call of its function `destroy` has one. -/
theorem isSome_tellGlobal_of_destroy {i : Instance} {w : World σ}
    (h : (i.destroy hooks fuel w).isSome) :
    (i.machine.tellGlobal hooks fuel "destroy" w).1.isSome := by
  rw [Machine.tellGlobal_fst]
  unfold destroy at h
  cases hcall : i.machine.callGlobal (Native.system hooks) fuel "destroy" [] w with
  | some ending => rfl
  | none =>
    split at h
    · rw [hcall] at h
      cases h
    · rename_i hready
      unfold Machine.callGlobal at hcall
      rw [if_neg hready] at hcall
      cases hcall

end Instance

/-- What happens in the machine with the handle during an operation, also if the operation has no
answer. -/
def Operation.moments (fuel : Nat) (b : Bridge σ) (vm : Handle) : Operation σ → List (Moment σ)
  | .step other =>
    if other = vm then
      match b.find vm with
      | .ok i => i.stepMoments b.hooks fuel b.world
      | .error _ => []
    else []
  | .destroyAll =>
    (Instance.destroyEachMoments b.hooks fuel b.instances.toList b.world)[vm.index]?.getD []
  | _ => []

/-- What the host does to the mailbox of the machine with the handle. -/
def Operation.mail (vm : Handle) (mailbox : Mailbox) : Operation σ → Mailbox
  | .feedMessage other sender payload =>
    if other = vm then mailbox.receive ⟨contextIdOf sender, payload⟩ else mailbox
  | .nextOutbound other => if other = vm then mailbox.takeOutbound.2 else mailbox
  | _ => mailbox

open Stage

/-- What has come of a machine that was left at the end of a path: its strings may have been
released, or the host may have changed its store. -/
inductive Machine.Becomes (m : Machine Native) : Machine Native → Prop where
  | same : Becomes m m
  | released : Becomes m m.released
  | changed {s : Store Native} (h : m.store.HostChange s) : Becomes m { m with store := s }

/-- A step is a path; if it ends in readiness, strings are released at its end. -/
theorem Instance.path_of_step {i i' : Instance} {hooks : HookTable σ} {fuel : Nat}
    {w w' : World σ} {outcome : StepOutcome}
    (h : i.step hooks fuel w = some (outcome, i', w')) :
    ∃ m, Path hooks (.idle i.machine) (i.stepMoments hooks fuel w) (.idle m) ∧
      i'.machine = if outcome = .ready then m.released else m := by
  unfold stepMoments
  unfold step at h
  split at h
  · rename_i hready
    rw [if_pos hready]
    obtain ⟨t, hpath, hends⟩ := Told.travels_turn hooks fuel (i, w)
    obtain ⟨⟨result, i₁, w₁⟩, hturn, heq⟩ := Option.map_eq_some_iff.mp h
    rw [← Told.tells_turn] at hturn
    obtain ⟨m, rfl, hmachine⟩ := hends result (i₁, w₁) hturn
    refine ⟨m, hpath, ?_⟩
    cases result <;> cases heq <;> exact hmachine
  · rename_i hready
    rw [if_neg hready]
    cases h
    exact ⟨i.machine, .nil _, rfl⟩

namespace Bridge

variable {b b' : Bridge σ} {vm : Handle} {i i' : Instance} {fuel : Nat} {op : Operation σ}

/-- The moments of a step are those of the script that is found. -/
theorem moments_step (hfind : b.find vm = .ok i) :
    (Operation.step vm).moments fuel b vm = i.stepMoments b.hooks fuel b.world := by
  dsimp only [Operation.moments]
  rw [if_pos rfl, hfind]

/-- In a machine that takes no step nothing happens. -/
theorem moments_step_ne {other : Handle} (hne : other ≠ vm) :
    (Operation.step other).moments fuel b vm = [] := if_neg hne

/-- Where no machine is loaded nothing happens. -/
theorem moments_of_error {error : BridgeError} (hfind : b.find vm = .error error)
    (op : Operation σ) : op.moments fuel b vm = [] := by
  cases op with
  | step other =>
    dsimp only [Operation.moments]
    rw [hfind]
    exact ite_self []
  | destroyAll =>
    unfold Operation.moments
    cases hmoments : (Instance.destroyEachMoments b.hooks fuel b.instances.toList
        b.world)[vm.index]? with
    | none => rfl
    | some moments =>
      obtain ⟨i, _, hi, _⟩ := Instance.exists_of_destroyEachMoments _ _ hmoments
      rw [Array.getElem?_toList] at hi
      rw [find_of_instance? hi] at hfind
      cases hfind
  | _ => rfl

/-- The moments of an operation are a path from the machine, also if the operation has no answer;
if it has one, the machine is left at the end. -/
theorem exists_path_moments (hfind : b.find vm = .ok i) (fuel : Nat) (op : Operation σ) :
    ∃ t, Path b.hooks (.idle i.machine) (op.moments fuel b vm) t ∧
      ((op.after fuel b).isSome → ∃ m, t = .idle m) := by
  have hnothing (hmoments : op.moments fuel b vm = []) :
      ∃ t, Path b.hooks (.idle i.machine) (op.moments fuel b vm) t ∧
        ((op.after fuel b).isSome → ∃ m, t = .idle m) := by
    rw [hmoments]
    exact ⟨_, .nil _, fun _ => ⟨_, rfl⟩⟩
  cases op with
  | step other =>
    by_cases hother : other = vm
    · subst hother
      by_cases hready : i.machine.isReady = true
      · obtain ⟨t, hpath, hends⟩ := Told.travels_turn b.hooks fuel (i, b.world)
        have hmoments : (Operation.step other).moments fuel b other =
            (Told.turn b.hooks fuel (i, b.world)).2 :=
          (moments_step hfind).trans (if_pos hready)
        rw [hmoments]
        refine ⟨t, hpath, fun hsome => ?_⟩
        obtain ⟨b', hop⟩ := Option.isSome_iff_exists.mp hsome
        obtain ⟨result, hresult, _⟩ := Option.map_eq_some_iff.mp hop
        rw [step_of_find hfind, Instance.step, if_pos hready] at hresult
        obtain ⟨inner, hinner, _⟩ := Option.map_eq_some_iff.mp hresult
        obtain ⟨⟨answer, i', w'⟩, hturn, _⟩ := Option.map_eq_some_iff.mp hinner
        rw [← Told.tells_turn] at hturn
        obtain ⟨m, hm, _⟩ := hends _ _ hturn
        exact ⟨m, hm⟩
      · exact hnothing ((moments_step hfind).trans (if_neg hready))
    · exact hnothing (moments_step_ne hother)
  | destroyAll =>
    cases hmoments : (Instance.destroyEachMoments b.hooks fuel b.instances.toList
        b.world)[vm.index]? with
    | none =>
      apply hnothing
      unfold Operation.moments
      rw [hmoments]
      rfl
    | some moments =>
      obtain ⟨j, w, hj, rfl, hsome⟩ := Instance.exists_of_destroyEachMoments _ _ hmoments
      rw [Array.getElem?_toList, getElem?_of_find hfind] at hj
      cases hj
      unfold Operation.moments
      rw [hmoments]
      obtain ⟨t, hpath, hends⟩ := Machine.travels_tellGlobal b.hooks fuel "destroy" i.machine w
      refine ⟨t, hpath, fun hanswer => ?_⟩
      obtain ⟨b', hop⟩ := Option.isSome_iff_exists.mp hanswer
      obtain ⟨result, hresult, _⟩ := Option.map_eq_some_iff.mp hop
      obtain ⟨inner, hinner, _⟩ := Option.map_eq_some_iff.mp hresult
      have hdestroy := hsome (by rw [hinner]; rfl)
      obtain ⟨ending, hending⟩ :=
        Option.isSome_iff_exists.mp (Instance.isSome_tellGlobal_of_destroy _ _ hdestroy)
      exact ⟨_, hends ending hending⟩
  | _ => exact hnothing rfl

/-- What is told of the machine with the handle is what happens in it. -/
structure Traces (b : Bridge σ) (vm : Handle) : Prop where
  turn : ∀ fuel, (Told.turn b.hooks fuel).Tells (Instance.turn b.hooks fuel)
  destroy : ∀ fuel (m : Machine Native) w, (m.tellGlobal b.hooks fuel "destroy" w).1 =
    m.callGlobal (Native.system b.hooks) fuel "destroy" [] w
  /-- The moments of an operation lead on from the machine, move by move. -/
  path : ∀ fuel (op : Operation σ) i, b.find vm = .ok i →
    ∃ t, Path b.hooks (.idle i.machine) (op.moments fuel b vm) t ∧
      ((op.after fuel b).isSome → ∃ m, t = .idle m)

/-- Every operation leaves traces of what it does with a machine. -/
theorem traces (b : Bridge σ) (vm : Handle) : b.Traces vm where
  turn := Told.tells_turn b.hooks
  destroy fuel := Machine.tellGlobal_fst b.hooks fuel "destroy"
  path fuel op _ hfind := exists_path_moments hfind fuel op

/-- A machine after a load has been there before or has just been loaded. -/
theorem find_of_load {files : Files} {bytecodePath debugPath : String} {contextId : UInt16}
    {handle : Handle} (h : b.load files bytecodePath debugPath contextId = .ok (b', handle))
    (hfind' : b'.find vm = .ok i') :
    b.find vm = .ok i' ∨ (∃ error, b.find vm = .error error) ∧ i'.machine.IsLoaded := by
  obtain ⟨program, debug, _, _, hprogram, hadd⟩ := exists_of_load h
  obtain ⟨image, himage⟩ := exists_of_readProgram hprogram
  cases hadd
  have hget : (b.instances.push _)[vm.index]? = some i' := getElem?_of_find hfind'
  rw [Array.getElem?_push] at hget
  split at hget
  · rename_i hnew
    cases hget
    refine .inr ⟨⟨.unknownVm vm, ?_⟩, image, program, b.limits, contextId, himage, rfl⟩
    unfold find instance?
    rw [Array.getElem?_eq_none (by omega)]
  · exact .inl (find_of_instance? hget)

/-- A machine after a step has taken the step, or another machine has taken it. -/
theorem find_of_step {other : Handle} (hop : (Operation.step other).after fuel b = some b')
    (hfind' : b'.find vm = .ok i') :
    (b.find vm = .ok i' ∧ other ≠ vm) ∨
      other = vm ∧ ∃ i outcome world, b.find vm = .ok i ∧
        b.step fuel vm = some (.ok (outcome, b')) ∧
        i.step b.hooks fuel b.world = some (outcome, i', world) := by
  obtain ⟨result, hresult, rfl⟩ := Option.map_eq_some_iff.mp hop
  match result with
  | .error e =>
    refine .inl ⟨hfind', fun hvm => ?_⟩
    subst hvm
    exact step_ne_error hfind' e hresult
  | .ok (outcome, b') =>
    obtain ⟨i, j, world, hother, hstep, hb'⟩ := exists_of_step hresult
    have hinstances : b'.instances = (b.replace other j).instances := by rw [hb']
    by_cases hvm : other = vm
    · subst hvm
      cases hfind'.symm.trans (find_replace hother hinstances)
      exact .inr ⟨rfl, i, outcome, world, hother, hresult, hstep⟩
    · have hsame := find_congr (instance?_replace_ne hinstances (Ne.symm hvm))
      exact .inl ⟨hsame.symm.trans hfind', hvm⟩

/-- What an operation has made of a machine. -/
theorem exists_path_of_after (hop : op.after fuel b = some b') (hfind' : b'.find vm = .ok i') :
    (∃ i m, b.find vm = .ok i ∧ Path b.hooks (.idle i.machine) (op.moments fuel b vm) (.idle m) ∧
        m.Becomes i'.machine) ∨
      (∃ error, b.find vm = .error error) ∧ i'.machine.IsLoaded := by
  have hstay (hfind : b.find vm = .ok i') (hmoments : op.moments fuel b vm = []) :
      ∃ i m, b.find vm = .ok i ∧ Path b.hooks (.idle i.machine) (op.moments fuel b vm) (.idle m) ∧
        m.Becomes i'.machine := by
    rw [hmoments]
    exact ⟨i', i'.machine, hfind, .nil _, .same⟩
  cases op with
  | load files bytecodePath debugPath contextId =>
    cases hop
    cases hload : b.load files bytecodePath debugPath contextId with
    | error e =>
      rw [hload] at hfind'
      exact .inl (hstay hfind' rfl)
    | ok loaded =>
      rw [hload] at hfind'
      exact (find_of_load hload hfind').imp_left fun hfind => hstay hfind rfl
  | step other =>
    left
    rcases find_of_step hop hfind' with ⟨hfind, hother⟩ | ⟨rfl, i, _, _, hfind, _, hstep⟩
    · exact hstay hfind (moments_step_ne hother)
    · obtain ⟨m, hpath, hmachine⟩ := Instance.path_of_step hstep
      rw [moments_step hfind]
      refine ⟨i, m, hfind, hpath, ?_⟩
      rw [hmachine]
      split
      · exact .released
      · exact .same
  | destroyAll =>
    obtain ⟨result, hresult, rfl⟩ := Option.map_eq_some_iff.mp hop
    obtain ⟨inner, _, rfl⟩ := Option.map_eq_some_iff.mp hresult
    cases getElem?_of_find hfind'
  | _ =>
    left
    cases touches_after hop trivial with
    | nothing hinstances _ =>
      refine hstay ((find_congr ?_).symm.trans hfind') rfl
      unfold instance?
      rw [hinstances]
    | @store other j s hother hs hinstances _ =>
      by_cases hvm : vm = other
      · subst hvm
        cases hfind'.symm.trans (find_replace hother hinstances)
        exact ⟨j, j.machine, hother, .nil _, .changed hs⟩
      · exact hstay ((find_congr (instance?_replace_ne hinstances hvm)).symm.trans hfind') rfl

/-- A machine after the host has changed the store of one of them. -/
theorem exists_of_updateStore {other : Handle} {f : Store Native → Store Native}
    (hfind' : (b.attempt (b.updateStore other f)).find vm = .ok i') :
    ∃ i, b.find vm = .ok i ∧
      i' = if other = vm then { i with machine := i.machine.mapStore f } else i := by
  unfold updateStore at hfind'
  cases hother : b.find other with
  | error e =>
    rw [hother] at hfind'
    have hvm : other ≠ vm := by
      rintro rfl
      cases hother.symm.trans hfind'
    exact ⟨i', hfind', (if_neg hvm).symm⟩
  | ok j =>
    rw [hother] at hfind'
    change (b.replace other { j with machine := j.machine.mapStore f }).find vm = .ok i' at hfind'
    by_cases hvm : other = vm
    · subst hvm
      rw [find_replace hother rfl] at hfind'
      exact ⟨j, hother, (Except.ok.inj hfind').symm.trans (if_pos rfl).symm⟩
    · rw [find_congr (instance?_replace_ne rfl (Ne.symm hvm))] at hfind'
      exact ⟨i', hfind', (if_neg hvm).symm⟩

/-- Taking a payload of a machine that is found takes the first one of its queue. -/
theorem nextOutbound_of_find (hfind : b.find vm = .ok i) :
    b.nextOutbound vm = .ok (i.machine.store.mailbox.outbound.head?, b.replace vm
      { i with machine := { i.machine with store := i.machine.store.takeOutbound.2 } }) := by
  unfold nextOutbound
  rw [hfind]
  rfl

/-- A machine after an operation that neither loads nor steps nor unloads. Only a registration for
it can have given it a native function. -/
theorem exists_of_minor (hop : op.after fuel b = some b') (hminor : op.IsMinor)
    (hfind' : b'.find vm = .ok i') :
    ∃ i, b.find vm = .ok i ∧ i'.machine.fault = i.machine.fault ∧
      i'.machine.store.mailbox = op.mail vm i.machine.store.mailbox ∧
      ((∀ slot name, op ≠ .registerHook vm slot name) →
        i'.machine.store.natives = i.machine.store.natives) := by
  have hstay (hinstances : b'.instances = b.instances)
      (hmail : op.mail vm i'.machine.store.mailbox = i'.machine.store.mailbox) :
      ∃ i, b.find vm = .ok i ∧ i'.machine.fault = i.machine.fault ∧
        i'.machine.store.mailbox = op.mail vm i.machine.store.mailbox ∧
        ((∀ slot name, op ≠ .registerHook vm slot name) →
          i'.machine.store.natives = i.machine.store.natives) := by
    refine ⟨i', (find_congr ?_).symm.trans hfind', rfl, hmail.symm, fun _ => rfl⟩
    unfold instance?
    rw [hinstances]
  cases op with
  | load | step | destroyAll => exact hminor.elim
  | resetNeighbors other | addNeighbor other id position | setAbsolutePosition other position
  | feedMessage other sender payload =>
    cases hop
    obtain ⟨i, hfind, rfl⟩ := exists_of_updateStore hfind'
    refine ⟨i, hfind, ?_, ?_, fun _ => ?_⟩
    · split <;> rfl
    · dsimp only [Operation.mail]
      split <;> rfl
    · split <;> rfl
  | nextOutbound other =>
    cases hop
    cases hother : b.find other with
    | error e =>
      have hsame : b.nextOutbound other = .error e := by
        unfold nextOutbound
        rw [hother]
        rfl
      rw [hsame] at hfind' hstay
      have hvm : other ≠ vm := by
        rintro rfl
        cases hother.symm.trans hfind'
      exact hstay rfl (if_neg hvm)
    | ok j =>
      rw [nextOutbound_of_find hother] at hfind'
      by_cases hvm : other = vm
      · subst hvm
        cases hfind'.symm.trans (find_replace hother rfl)
        exact ⟨j, hother, rfl, (if_pos rfl).symm, fun _ => rfl⟩
      · exact ⟨i', (find_congr (instance?_replace_ne rfl (Ne.symm hvm))).symm.trans hfind', rfl,
          (if_neg hvm).symm, fun _ => rfl⟩
  | registerHook other slot name =>
    cases hop
    cases hresult : b.registerHook other slot name with
    | error e =>
      rw [hresult] at hstay
      exact hstay rfl rfl
    | ok b' =>
      rw [hresult] at hfind'
      obtain ⟨j, _, _, _, hother, _, _, _, hinstances, _⟩ := exists_of_registerHook hresult
      by_cases hvm : other = vm
      · subst hvm
        cases hfind'.symm.trans (find_replace hother hinstances)
        exact ⟨j, hother, rfl, rfl, fun hne => absurd rfl (hne slot name)⟩
      · exact ⟨i', (find_congr (instance?_replace_ne hinstances (Ne.symm hvm))).symm.trans hfind',
          rfl, rfl, fun _ => rfl⟩
  | importModule name =>
    cases hop
    cases hresult : b.importModule name with
    | error e =>
      rw [hresult] at hstay
      exact hstay rfl rfl
    | ok b' =>
      rw [hresult] at hstay
      unfold importModule at hresult
      cases himport : b.library.importModule name b.world with
      | error e =>
        rw [himport] at hresult
        cases hresult
      | ok imported =>
        rw [himport] at hresult
        cases hresult
        exact hstay rfl rfl
  | registerInit =>
    cases hop
    refine hstay ?_ rfl
    unfold registerInit
    split
    · rfl
    · split <;> rfl
  | installModule | changeWorld =>
    cases hop
    exact hstay rfl rfl

/-- The bounds for machines stay the same, only a registration can bind a slot, and only
installing and importing change what is found in the library. -/
theorem settings_after (hop : op.after fuel b = some b') :
    b'.limits = b.limits ∧
      ((∀ vm slot name, op ≠ .registerHook vm slot name) → b'.hooks = b.hooks) ∧
      ((∀ m, op ≠ .installModule m) → (∀ name, op ≠ .importModule name) →
        ∃ bootstrapped, b'.library = { b.library with bootstrapped }) := by
  have hupdate (other : Handle) (f : Store Native → Store Native) :
      (b.attempt (b.updateStore other f)).limits = b.limits ∧
        (b.attempt (b.updateStore other f)).hooks = b.hooks ∧
        (b.attempt (b.updateStore other f)).library = b.library := by
    unfold updateStore
    cases b.find other <;> exact ⟨rfl, rfl, rfl⟩
  cases op with
  | load files bytecodePath debugPath contextId =>
    cases hop
    cases hload : b.load files bytecodePath debugPath contextId with
    | error e => exact ⟨rfl, fun _ => rfl, fun _ _ => ⟨_, rfl⟩⟩
    | ok loaded =>
      obtain ⟨b', handle⟩ := loaded
      obtain ⟨_, program, debug, journal, rfl⟩ := gains_of_load hload
      exact ⟨rfl, fun _ => rfl, fun _ _ => ⟨_, rfl⟩⟩
  | step other =>
    obtain ⟨result, hresult, rfl⟩ := Option.map_eq_some_iff.mp hop
    match result with
    | .error e => exact ⟨rfl, fun _ => rfl, fun _ _ => ⟨_, rfl⟩⟩
    | .ok (outcome, b') =>
      obtain ⟨_, _, _, _, _, rfl⟩ := exists_of_step hresult
      exact ⟨rfl, fun _ => rfl, fun _ _ => ⟨_, rfl⟩⟩
  | destroyAll =>
    obtain ⟨result, hresult, rfl⟩ := Option.map_eq_some_iff.mp hop
    obtain ⟨inner, _, rfl⟩ := Option.map_eq_some_iff.mp hresult
    exact ⟨rfl, fun _ => rfl, fun _ _ => ⟨_, rfl⟩⟩
  | resetNeighbors other | addNeighbor other id position | setAbsolutePosition other position
  | feedMessage other sender payload =>
    cases hop
    obtain ⟨hlimits, hhooks, hlibrary⟩ := hupdate other _
    exact ⟨hlimits, fun _ => hhooks, fun _ _ => ⟨_, hlibrary⟩⟩
  | nextOutbound other =>
    cases hop
    unfold nextOutbound
    cases b.find other <;> exact ⟨rfl, fun _ => rfl, fun _ _ => ⟨_, rfl⟩⟩
  | importModule name =>
    cases hop
    unfold importModule
    cases b.library.importModule name b.world <;>
      exact ⟨rfl, fun _ => rfl, fun _ hne => absurd rfl (hne name)⟩
  | registerHook other slot name =>
    cases hop
    cases hregister : b.registerHook other slot name with
    | error e => exact ⟨rfl, fun _ => rfl, fun _ _ => ⟨_, rfl⟩⟩
    | ok b' =>
      obtain ⟨_, _, _, _, _, _, _, _, _, _, hlimits, hlibrary⟩ := exists_of_registerHook hregister
      exact ⟨hlimits, fun hne => absurd rfl (hne other slot name), fun _ _ => ⟨_, hlibrary⟩⟩
  | registerInit =>
    cases hop
    unfold registerInit
    split
    · exact ⟨rfl, fun _ => rfl, fun _ _ => ⟨_, rfl⟩⟩
    · split <;> exact ⟨rfl, fun _ => rfl, fun _ _ => ⟨_, rfl⟩⟩
  | installModule m =>
    cases hop
    exact ⟨rfl, fun _ => rfl, fun hne => absurd rfl (hne m)⟩
  | changeWorld =>
    cases hop
    exact ⟨rfl, fun _ => rfl, fun _ _ => ⟨_, rfl⟩⟩

end Bridge

section Tidiness

variable {allowed : RuntimeError → Prop}

/-- What becomes of a tidy machine is tidy. -/
theorem Machine.Becomes.tidy {m m' : Machine Native} (h : m.Becomes m') (hm : m.Tidy allowed) :
    m'.Tidy allowed := by
  cases h with
  | same | released | changed _ => exact ⟨hm.fits, hm.fault⟩

/-- A machine that is loaded is tidy. -/
theorem Machine.IsLoaded.tidy {m : Machine Native} (h : m.IsLoaded) : m.Tidy allowed := by
  obtain ⟨image, program, limits, contextId, _, rfl⟩ := h
  unfold Machine.loaded
  rw [Machine.new_eq]
  exact ⟨Nat.zero_le _, nofun⟩

/-- Operations keep machines tidy whose native functions fail only as allowed. -/
theorem Bridge.tidy_after (hallowed : ∀ error : RuntimeError, ¬error.IsRaised → allowed error)
    {b b' : Bridge σ} (hb : ∀ i ∈ b.instances, i.machine.Tidy allowed)
    (hfails : ∀ i ∈ b.instances, (Native.system b.hooks).FailsAs allowed i.machine)
    {fuel : Nat} {op : Operation σ} (hop : op.after fuel b = some b') :
    ∀ i ∈ b'.instances, i.machine.Tidy allowed := by
  intro i' hi'
  obtain ⟨k, hk⟩ := Array.mem_iff_getElem?.mp hi'
  have hfind' : b'.find ⟨k⟩ = .ok i' := find_of_instance? hk
  rcases exists_path_of_after hop hfind' with ⟨i, m, hfind, hpath, hbecomes⟩ | ⟨_, hloaded⟩
  · have hi := mem_of_find hfind
    exact hbecomes.tidy (hpath.exchanges hallowed (hb i hi) (hfails i hi)).1
  · exact hloaded.tidy

end Tidiness

end Swarm
