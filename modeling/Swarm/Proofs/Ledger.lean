import Swarm.Proofs.Entrances

/-!
# The ledger of all scripts

A ledger keeps a record for every script that was ever loaded: what has been
entered in its machine, operation by operation, and what has happened there. The
records of loaded scripts lead to their machines, and tell how far the scripts
have come; those of scripts that have been unloaded lead to a machine that has been
dismissed or had faulted.
-/

namespace Swarm

variable {σ : Type}

namespace Instance

variable {i : Instance} (hooks : HookTable σ) (fuel : Nat)

/-- What unloading a script enters. -/
def destroyEvents (i : Instance) (w : World σ) : List Event :=
  i.machine.globalEvents hooks fuel w .destroy "destroy"

/-- What unloading scripts in their order enters, script by script. Behind a script whose function
`destroy` has no answer nothing is entered any more. -/
def destroyEachEvents : List Instance → World σ → List (List Event)
  | [], _ => []
  | i :: rest, w => i.destroyEvents hooks fuel w ::
    match i.destroy hooks fuel w with
    | none => []
    | some (_, w) => destroyEachEvents rest w

/-- A script is unloaded in a world that the scripts before it have left, or not at all. -/
theorem exists_of_destroyEach {scripts : List Instance} {k : Nat} (hk : scripts[k]? = some i)
    (w : World σ) :
    (∃ w', (destroyEachEvents hooks fuel scripts w)[k]? = some (i.destroyEvents hooks fuel w') ∧
      (destroyEachMoments hooks fuel scripts w)[k]? =
        some (i.machine.tellGlobal hooks fuel "destroy" w').2 ∧
      ((destroyEach hooks fuel scripts w).isSome → (i.destroy hooks fuel w').isSome)) ∨
    (destroyEachEvents hooks fuel scripts w)[k]? = none ∧
      (destroyEachMoments hooks fuel scripts w)[k]? = none ∧
      destroyEach hooks fuel scripts w = none := by
  induction scripts generalizing w k with
  | nil => cases hk
  | cons j rest ih =>
    unfold destroyEachEvents destroyEachMoments destroyEach
    cases hdestroy : j.destroy hooks fuel w with
    | none =>
      -- Unloading ends here, so only the first script has been entered.
      cases k with
      | zero =>
        cases hk
        exact .inl ⟨w, rfl, rfl, by simp⟩
      | succ k => exact .inr ⟨rfl, rfl, rfl⟩
    | some destroyed =>
      cases k with
      | zero =>
        cases hk
        exact .inl ⟨w, rfl, rfl, fun _ => by rw [hdestroy]; rfl⟩
      | succ k =>
        rcases ih hk destroyed.2 with ⟨w', hevents, hmoments, hends⟩ | ⟨hevents, hmoments, hnone⟩
        · refine .inl ⟨w', hevents, hmoments, fun hall => hends ?_⟩
          cases hrest : destroyEach hooks fuel rest destroyed.2 with
          | none => simp [hrest] at hall
          | some _ => rfl
        · exact .inr ⟨hevents, hmoments, by simp [hnone]⟩

/-- A script is unloaded in order, and its function `destroy` is called at most once, and only if
the machine is ready. -/
theorem Consistent.destroyed (hi : i.Consistent) (w : World σ) :
    ∃ p answer, i.progress.after (i.destroyEvents hooks fuel w) = some p ∧
      i.machine.Entered hooks (i.destroyEvents hooks fuel w)
        (i.machine.tellGlobal hooks fuel "destroy" w).2 answer ∧
      ((i.destroy hooks fuel w).isSome → answer.isSome ∧ (p = .unloaded ∨ p = .halted)) := by
  have hdestroy : EntryPoint.name? .destroy = some "destroy" := rfl
  have hentered := Machine.entered_tellGlobal hdestroy hooks fuel i.machine w
  have hsome (h : (i.destroy hooks fuel w).isSome) :=
    isSome_tellGlobal_of_destroy hooks fuel h
  rw [Machine.tellGlobal_fst] at hsome
  cases hready : i.machine.isReady with
  | false =>
    have hprogress : i.progress = .halted := by simp [progress, hready]
    have hevents : i.destroyEvents hooks fuel w = [] := by
      simp [destroyEvents, Machine.globalEvents, hready]
    refine ⟨.halted, _, by rw [hprogress, hevents]; rfl, hentered, fun h => ?_⟩
    exact ⟨by rw [Option.isSome_map]; exact hsome h, .inr rfl⟩
  | true =>
    have hnext (visit : Visit) :
        i.progress.next (.entered .destroy visit) = some (visit.leadsTo .unloaded) := by
      unfold progress
      rw [if_pos hready]
      split <;> rfl
    obtain ⟨p, hafter, hends⟩ : Machine.Enters
        (Machine.callGlobal (Native.system hooks) fuel "destroy" [])
        (fun m w => m.globalEvents hooks fuel w .destroy "destroy") i.progress .unloaded
        i.machine w := Machine.enters_callGlobal (hi.rest hready) hnext
    refine ⟨p, _, hafter, hentered, fun h => ⟨by rw [Option.isSome_map]; exact hsome h, ?_⟩⟩
    obtain ⟨ending, hending⟩ := Option.isSome_iff_exists.mp (hsome h)
    rw [(hends ending hending).2, Visit.of_some]
    cases ending.result with
    | ok v => exact .inl rfl
    | error e => exact .inr rfl

end Instance

/-- What has been entered in the machine of a script, and what has happened there. -/
structure Record (σ : Type) where
  events : List Event := []
  moments : List (Moment σ) := []

namespace Record

/-- The record goes on. -/
def extend (r : Record σ) (events : List Event) (moments : List (Moment σ)) : Record σ :=
  ⟨r.events ++ events, r.moments ++ moments⟩

/-- What a record leads to: from a machine that has just been loaded, over what is entered in it
under the bindings of each operation, while the host changes its store in between. There is no
answer if the last operation has none. -/
inductive LeadsTo : Record σ → Option (Machine Native) → Prop where
  | loaded {m : Machine Native} (h : m.IsLoaded) : LeadsTo {} (some m)
  | changed {r : Record σ} {m : Machine Native} {s : Store Native} (h : LeadsTo r (some m))
      (hs : m.store.HostChange s) : LeadsTo r (some { m with store := s })
  | entered {r : Record σ} {m : Machine Native} {hooks : HookTable σ} {events : List Event}
      {moments : List (Moment σ)} {answer : Option (Machine Native)} (h : LeadsTo r (some m))
      (hentered : m.Entered hooks events moments answer) :
      LeadsTo (r.extend events moments) answer

/-- The record tells how far the script has come, and leads to its machine. -/
structure Describes (r : Record σ) (i : Instance) : Prop where
  progress : Progress.loaded.after r.events = some i.progress
  leads : r.LeadsTo (some i.machine)

end Record

/-- The records of all loaded scripts in the order of their handles, and of those that have been
unloaded. -/
structure Ledger (σ : Type) where
  live : List (Record σ) := []
  gone : List (Record σ) := []

/-- What is entered in the machine with the handle in an operation, also if the operation has no
answer. -/
def Operation.events (fuel : Nat) (b : Bridge σ) (vm : Handle) : Operation σ → List Event
  | .step other =>
    if other = vm then
      match b.find vm with
      | .ok i => i.stepEvents b.hooks fuel b.world
      | .error _ => []
    else []
  | .destroyAll =>
    (Instance.destroyEachEvents b.hooks fuel b.instances.toList b.world)[vm.index]?.getD []
  | _ => []

/-- The records of the loaded scripts go on with what is entered in an operation and what happens
in it. -/
def Ledger.extended (fuel : Nat) (b : Bridge σ) (l : Ledger σ) (op : Operation σ) :
    List (Record σ) :=
  l.live.mapIdx fun k r => r.extend (op.events fuel b ⟨k⟩) (op.moments fuel b ⟨k⟩)

/-- The ledger after an operation, also if the operation has no answer. -/
def Operation.record (fuel : Nat) (b : Bridge σ) (l : Ledger σ) (op : Operation σ) : Ledger σ :=
  let live := l.extended fuel b op
  match op with
  | .load files bytecodePath debugPath contextId =>
    match b.load files bytecodePath debugPath contextId with
    | .ok _ => { l with live := live ++ [{}] }
    | .error _ => { l with live }
  | .destroyAll => { live := [], gone := l.gone ++ live }
  | _ => { l with live }

/-- A sequence of operations has led to the bridge and the ledger. -/
inductive Bridge.Recorded : Bridge σ → Ledger σ → Prop where
  | new (maxVms hookCapacity : Nat) (limits : Limits) (host : σ) :
      Recorded (.new maxVms hookCapacity limits host) {}
  | after {b b' : Bridge σ} {l : Ledger σ} (h : Recorded b l) {fuel : Nat} {op : Operation σ}
      (hop : op.after fuel b = some b') : Recorded b' (op.record fuel b l)

/-- A recorded bridge is reachable. -/
theorem Bridge.Recorded.reachable {b : Bridge σ} {l : Ledger σ} (h : b.Recorded l) :
    b.Reachable := by
  induction h with
  | new maxVms hookCapacity limits host => exact .new maxVms hookCapacity limits host
  | after _ hop ih => exact ih.after hop

/-- The ledger after operations one after the other. -/
def Operation.recordAll (fuel : Nat) (b : Bridge σ) (l : Ledger σ) : List (Operation σ) → Ledger σ
  | [] => l
  | op :: ops =>
    match op.after fuel b with
    | none => op.record fuel b l
    | some b' => recordAll fuel b' (op.record fuel b l) ops

/-- Operations one after the other lead on. -/
theorem Bridge.Recorded.afterAll {fuel : Nat} {b b' : Bridge σ} {l : Ledger σ}
    {ops : List (Operation σ)} (h : b.Recorded l)
    (hops : Operation.afterAll fuel b ops = some b') :
    b'.Recorded (Operation.recordAll fuel b l ops) := by
  induction ops generalizing b l with
  | nil =>
    cases hops
    exact h
  | cons op ops ih =>
    obtain ⟨b₁, hop, hrest⟩ := Option.bind_eq_some_iff.mp hops
    unfold Operation.recordAll
    rw [hop]
    exact ih (h.after hop) hrest

namespace Operation

variable {fuel : Nat} {b : Bridge σ} {op : Operation σ} {vm : Handle} {i i' : Instance}

/-- The script is entered in order in the operation, and what is entered in its machine is what
happens there. An operation with an answer leads to a machine; if it unloads all scripts, the
function `destroy` has been called or the script had faulted. -/
def EntersInOrder (fuel : Nat) (b : Bridge σ) (vm : Handle) (i : Instance) (op : Operation σ) :
    Prop :=
  ∃ p answer, i.progress.after (op.events fuel b vm) = some p ∧
    i.machine.Entered b.hooks (op.events fuel b vm) (op.moments fuel b vm) answer ∧
    ((op.after fuel b).isSome → answer.isSome ∧ (op = .destroyAll → p = .unloaded ∨ p = .halted))

/-- Where nothing is entered the script is left as it is. -/
theorem entersInOrder_of_nil (hevents : op.events fuel b vm = [])
    (hmoments : op.moments fuel b vm = []) (hne : (op.after fuel b).isSome → op ≠ .destroyAll) :
    op.EntersInOrder fuel b vm i := by
  unfold EntersInOrder
  rw [hevents, hmoments]
  exact ⟨_, _, rfl, .rest _, fun h => ⟨rfl, fun heq => absurd heq (hne h)⟩⟩

/-- The operation has made the second script of the first one by what it has entered, and the host
has changed the store at most. -/
structure Makes (fuel : Nat) (b : Bridge σ) (vm : Handle) (op : Operation σ) (i i' : Instance) :
    Prop where
  progress : i.progress.after (op.events fuel b vm) = some i'.progress
  machine : ∃ m, i.machine.Entered b.hooks (op.events fuel b vm) (op.moments fuel b vm) (some m) ∧
    (i'.machine = m ∨ ∃ s, m.store.HostChange s ∧ i'.machine = { m with store := s })

/-- Where nothing is entered the script stays the same. -/
theorem makes_self (hevents : op.events fuel b vm = []) (hmoments : op.moments fuel b vm = []) :
    op.Makes fuel b vm i i := by
  refine ⟨?_, i.machine, ?_, .inl rfl⟩ <;> rw [hevents]
  · rfl
  · rw [hmoments]
    exact .rest _

end Operation

namespace Bridge

variable {b b' : Bridge σ} {vm : Handle} {i i' : Instance}

/-- A step enters its script. -/
theorem events_step {fuel : Nat} (hfind : b.find vm = .ok i) :
    (Operation.step vm).events fuel b vm = i.stepEvents b.hooks fuel b.world := by
  dsimp only [Operation.events]
  rw [if_pos rfl, hfind]

/-- A step enters its script in order. -/
theorem Registered.entersInOrder_step (hb : b.Registered) (hfind : b.find vm = .ok i)
    (fuel : Nat) : (Operation.step vm).EntersInOrder fuel b vm i := by
  have hi := hb.consistent i (mem_of_find hfind)
  obtain ⟨p, hafter, _⟩ := hi.step b.hooks fuel b.world
  unfold Operation.EntersInOrder
  rw [events_step hfind, moments_step hfind]
  refine ⟨p, _, hafter, hi.entered_step b.hooks fuel b.world, fun hsome => ⟨?_, nofun⟩⟩
  rw [Option.isSome_map]
  change (Option.map _ (b.step fuel vm)).isSome at hsome
  rwa [Option.isSome_map, step_of_find hfind, Option.isSome_map] at hsome

/-- Unloading all scripts enters each of them in order. -/
theorem Registered.entersInOrder_destroyAll (hb : b.Registered) (hfind : b.find vm = .ok i)
    (fuel : Nat) : Operation.destroyAll.EntersInOrder fuel b vm i := by
  have hi := hb.consistent i (mem_of_find hfind)
  have hget : b.instances.toList[vm.index]? = some i := by
    rw [Array.getElem?_toList]
    exact getElem?_of_find hfind
  have hsome : (Operation.destroyAll.after fuel b).isSome →
      (Instance.destroyEach b.hooks fuel b.instances.toList b.world).isSome := by
    intro h
    change (Option.map _ (Option.map _ _)).isSome at h
    rwa [Option.isSome_map, Option.isSome_map] at h
  rcases Instance.exists_of_destroyEach b.hooks fuel hget b.world with
    ⟨w, hevents, hmoments, hends⟩ | ⟨hevents, hmoments, hnone⟩
  · obtain ⟨p, answer, hafter, hentered, hanswer⟩ := hi.destroyed b.hooks fuel w
    refine ⟨p, answer, ?_, ?_, fun h => ?_⟩
    · unfold Operation.events
      rw [hevents]
      exact hafter
    · unfold Operation.events Operation.moments
      rw [hevents, hmoments]
      exact hentered
    · obtain ⟨hmachine, hprogress⟩ := hanswer (hends (hsome h))
      exact ⟨hmachine, fun _ => hprogress⟩
  · -- A script before this one has no answer, and neither has the operation.
    refine Operation.entersInOrder_of_nil ?_ ?_ fun h => ?_
    · unfold Operation.events
      rw [hevents]
      rfl
    · unfold Operation.moments
      rw [hmoments]
      rfl
    · rw [hnone] at hsome
      cases hsome h

/-- In every operation scripts are entered in order. -/
theorem Registered.entersInOrder (hb : b.Registered) (hfind : b.find vm = .ok i) (fuel : Nat)
    (op : Operation σ) : op.EntersInOrder fuel b vm i := by
  cases op with
  | step other =>
    by_cases hother : other = vm
    · subst hother
      exact hb.entersInOrder_step hfind fuel
    · exact Operation.entersInOrder_of_nil (if_neg hother) (moments_step_ne hother) fun _ => nofun
  | destroyAll => exact hb.entersInOrder_destroyAll hfind fuel
  | _ => exact Operation.entersInOrder_of_nil rfl rfl fun _ => nofun

/-- A machine that a load has added has not been stepped. -/
theorem Gains.find {script : String} {contextId : UInt16} {handle : Handle}
    (hb : b.Gains script contextId handle b') (hfind' : b'.find vm = .ok i') :
    b.find vm = .ok i' ∨ i'.stepped = false := by
  obtain ⟨_, program, debug, journal, rfl⟩ := hb
  have hget : (b.instances.push _)[vm.index]? = some i' := getElem?_of_find hfind'
  rw [Array.getElem?_push] at hget
  split at hget
  · cases hget
    exact .inr rfl
  · exact .inl (find_of_instance? hget)

/-- A script that a load has added has made no progress. -/
theorem progress_of_load {files : Files} {bytecodePath debugPath : String} {contextId : UInt16}
    {handle : Handle} {error : BridgeError}
    (h : b.load files bytecodePath debugPath contextId = .ok (b', handle))
    (hnew : b.find vm = .error error) (hfind' : b'.find vm = .ok i')
    (hloaded : i'.machine.IsLoaded) : i'.progress = .loaded := by
  rcases (gains_of_load h).find hfind' with hold | hstepped
  · cases hnew.symm.trans hold
  · obtain ⟨image, program, limits, contextId, _, hmachine⟩ := hloaded
    have hready := (Machine.atRest_loaded program limits contextId).1
    rw [← hmachine] at hready
    simp [Instance.progress, hready, hstepped]

/-- A step makes its script. -/
theorem Registered.makes_step (hb : b.Registered) {fuel : Nat} {outcome : StepOutcome}
    {w : World σ} (hfind : b.find vm = .ok i)
    (hstep : i.step b.hooks fuel b.world = some (outcome, i', w)) :
    (Operation.step vm).Makes fuel b vm i i' := by
  have hi := hb.consistent i (mem_of_find hfind)
  obtain ⟨p, hafter, hends⟩ := hi.step b.hooks fuel b.world
  obtain ⟨rfl, _⟩ := hends _ _ _ hstep
  have hentered := hi.entered_step b.hooks fuel b.world
  rw [hstep] at hentered
  refine ⟨?_, _, ?_, .inl rfl⟩ <;> rw [events_step hfind]
  · exact hafter
  · rw [moments_step hfind]
    exact hentered

/-- A script after an operation with an answer has been made of the one before it, or it has just
been loaded. -/
theorem Registered.makes_or_loaded (hb : b.Registered) {fuel : Nat} {op : Operation σ}
    (hop : op.after fuel b = some b') (hfind' : b'.find vm = .ok i') :
    (∃ i, b.find vm = .ok i ∧ op.Makes fuel b vm i i') ∨
      (∃ error, b.find vm = .error error) ∧ i'.machine.IsLoaded ∧ i'.progress = .loaded := by
  cases op with
  | load files bytecodePath debugPath contextId =>
    cases hop
    cases hload : b.load files bytecodePath debugPath contextId with
    | error e =>
      rw [hload] at hfind'
      exact .inl ⟨i', hfind', Operation.makes_self rfl rfl⟩
    | ok loaded =>
      rw [hload] at hfind'
      rcases find_of_load hload hfind' with hfind | ⟨⟨error, hnew⟩, hloaded⟩
      · exact .inl ⟨i', hfind, Operation.makes_self rfl rfl⟩
      · exact .inr ⟨⟨error, hnew⟩, hloaded, progress_of_load hload hnew hfind' hloaded⟩
  | step other =>
    left
    rcases find_of_step hop hfind' with ⟨hfind, hother⟩ | ⟨rfl, i, _, _, hfind, _, hstep⟩
    · exact ⟨i', hfind, Operation.makes_self (if_neg hother) (moments_step_ne hother)⟩
    · exact ⟨i, hfind, hb.makes_step hfind hstep⟩
  | destroyAll =>
    obtain ⟨result, hresult, rfl⟩ := Option.map_eq_some_iff.mp hop
    obtain ⟨inner, _, rfl⟩ := Option.map_eq_some_iff.mp hresult
    cases getElem?_of_find hfind'
  | _ =>
    left
    cases touches_after hop trivial with
    | nothing hinstances _ =>
      refine ⟨i', (find_congr ?_).symm.trans hfind', Operation.makes_self rfl rfl⟩
      unfold instance?
      rw [hinstances]
    | @store other j s hother hs hinstances _ =>
      by_cases hvm : vm = other
      · subst hvm
        cases hfind'.symm.trans (find_replace hother hinstances)
        exact ⟨j, hother, rfl, j.machine, .rest _, .inr ⟨s, hs, rfl⟩⟩
      · have hsame := find_congr (instance?_replace_ne hinstances hvm)
        exact ⟨i', hsame.symm.trans hfind', Operation.makes_self rfl rfl⟩

end Bridge

namespace Record

variable {r : Record σ} {i : Instance} {hooks : HookTable σ} {events : List Event}
  {moments : List (Moment σ)} {p : Progress}

/-- A script of which nothing has been asked has an empty record. -/
theorem describes_loaded (hloaded : i.machine.IsLoaded) (hprogress : i.progress = .loaded) :
    Describes (σ := σ) {} i :=
  ⟨by rw [hprogress]; rfl, .loaded hloaded⟩

/-- The events of a script go on in order. -/
theorem Describes.after_extend (h : r.Describes i) (hafter : i.progress.after events = some p) :
    Progress.loaded.after (r.extend events moments).events = some p :=
  (Progress.after_append h.progress events).trans hafter

end Record

namespace Ledger

variable {b b' : Bridge σ} {l : Ledger σ} {r : Record σ} {fuel : Nat} {op : Operation σ}

/-- All records of loaded scripts describe them; the scripts of the others have been unloaded or
had faulted. -/
structure Agrees (l : Ledger σ) (b : Bridge σ) : Prop where
  length : l.live.length = b.vmCount
  live : ∀ (k : Nat) (r : Record σ) (i : Instance), l.live[k]? = some r →
    b.instances[k]? = some i → r.Describes i
  gone : ∀ r ∈ l.gone, (Progress.loaded.after r.events = some .unloaded ∨
    Progress.loaded.after r.events = some .halted) ∧ ∃ m, r.LeadsTo (some m)

/-- An operation keeps one record for every script that is live. -/
theorem length_extended (l : Ledger σ) (fuel : Nat) (b : Bridge σ) (op : Operation σ) :
    (l.extended fuel b op).length = l.live.length := List.length_mapIdx

/-- The record of a loaded script, and how it goes on. -/
theorem Agrees.exists_extended (h : l.Agrees b) {k : Nat} {i : Instance}
    (hi : b.instances[k]? = some i) (fuel : Nat) (op : Operation σ) :
    ∃ r : Record σ, r.Describes i ∧ (l.extended fuel b op)[k]? =
      some (r.extend (op.events fuel b ⟨k⟩) (op.moments fuel b ⟨k⟩)) := by
  obtain ⟨hlt, _⟩ := Array.getElem?_eq_some_iff.mp hi
  change k < b.vmCount at hlt
  rw [← h.length] at hlt
  have hget := List.getElem?_eq_getElem hlt
  refine ⟨_, h.live k _ i hget hi, ?_⟩
  unfold extended
  rw [List.getElem?_mapIdx, hget]
  rfl

/-- Every record that goes on is one of a loaded script. -/
theorem Agrees.exists_of_mem_extended (h : l.Agrees b) (hr : r ∈ l.extended fuel b op) :
    ∃ (k : Nat) (i : Instance) (r₀ : Record σ), b.instances[k]? = some i ∧ r₀.Describes i ∧
      r = r₀.extend (op.events fuel b ⟨k⟩) (op.moments fuel b ⟨k⟩) := by
  obtain ⟨k, hk⟩ := List.getElem?_of_mem hr
  obtain ⟨hlt, _⟩ := List.getElem?_eq_some_iff.mp hk
  rw [length_extended, h.length] at hlt
  have hi : b.instances[k]? = some b.instances[k] := Array.getElem?_eq_getElem hlt
  obtain ⟨r₀, hdescribes, hget⟩ := h.exists_extended hi fuel op
  exact ⟨k, _, r₀, hi, hdescribes, Option.some.inj (hk.symm.trans hget)⟩

/-- All records go on in order, and lead on. -/
theorem Agrees.exists_after_extended (h : l.Agrees b) (hb : b.Registered)
    (hr : r ∈ l.extended fuel b op) :
    ∃ p answer, Progress.loaded.after r.events = some p ∧ r.LeadsTo answer ∧
      ((op.after fuel b).isSome → answer.isSome ∧
        (op = .destroyAll → p = .unloaded ∨ p = .halted)) := by
  obtain ⟨k, i, r₀, hi, hdescribes, rfl⟩ := h.exists_of_mem_extended hr
  have hfind : b.find ⟨k⟩ = .ok i := Bridge.find_of_instance? hi
  obtain ⟨p, answer, hafter, hentered, hends⟩ := hb.entersInOrder hfind fuel op
  exact ⟨p, answer, hdescribes.after_extend hafter, .entered hdescribes.leads hentered, hends⟩

/-- In the operation the records go on and new ones are added, one for each script that has been
loaded. -/
structure Adds (fuel : Nat) (b : Bridge σ) (l : Ledger σ) (op : Operation σ)
    (new : List (Record σ)) : Prop where
  record : op.record fuel b l = ⟨l.extended fuel b op ++ new, l.gone⟩
  loaded : ∀ r ∈ new, r = {} ∧ ∃ m : Machine Native, m.IsLoaded
  count : ∀ b', op.after fuel b = some b' → b'.vmCount = b.vmCount + new.length

/-- Where no script is loaded no record is added. -/
theorem adds_nil (hrecord : op.record fuel b l = { l with live := l.extended fuel b op })
    (hcount : ∀ b', op.after fuel b = some b' → b'.vmCount = b.vmCount) :
    Adds fuel b l op [] :=
  ⟨by rw [hrecord, List.append_nil], by simp, hcount⟩

/-- An operation that unloads nothing adds an empty record if it loads a script. -/
theorem exists_adds (fuel : Nat) (b : Bridge σ) (l : Ledger σ) (hkeep : op ≠ .destroyAll) :
    ∃ new, Adds fuel b l op new := by
  cases op with
  | load files bytecodePath debugPath contextId =>
    cases hload : b.load files bytecodePath debugPath contextId with
    | error e =>
      refine ⟨[], adds_nil ?_ fun b' hop => ?_⟩
      · simp only [Operation.record, hload]
      · simp only [Operation.after, hload] at hop
        cases hop
        rfl
    | ok loaded =>
      obtain ⟨program, debug, _, _, hprogram, _⟩ := Bridge.exists_of_load hload
      obtain ⟨image, himage⟩ := Bridge.exists_of_readProgram hprogram
      refine ⟨[{}], by simp only [Operation.record, hload], fun r hr => ?_, fun b' hop => ?_⟩
      · exact ⟨List.mem_singleton.mp hr, _, image, program, b.limits, contextId, himage, rfl⟩
      · simp only [Operation.after, hload] at hop
        cases hop
        obtain ⟨b', handle⟩ := loaded
        obtain ⟨_, _, _, _, rfl⟩ := Bridge.gains_of_load hload
        exact Array.size_push _
  | step vm =>
    refine ⟨[], adds_nil rfl fun b' hop => ?_⟩
    obtain ⟨result, hresult, rfl⟩ := Option.map_eq_some_iff.mp hop
    match result with
    | .error e => rfl
    | .ok (outcome, b') =>
      obtain ⟨_, _, _, _, _, rfl⟩ := Bridge.exists_of_step hresult
      exact Array.size_setIfInBounds
  | destroyAll => exact absurd rfl hkeep
  | _ =>
    refine ⟨[], adds_nil rfl fun b' hop => ?_⟩
    cases Bridge.touches_after hop trivial with
    | nothing hinstances _ => exact congrArg Array.size hinstances
    | store _ _ hinstances _ =>
      exact (congrArg Array.size hinstances).trans Array.size_setIfInBounds

/-- The records after an operation are those of before, which go on or are complete, and an empty
one for a script that has been loaded. -/
theorem mem_record (hr : r ∈ (op.record fuel b l).live ++ (op.record fuel b l).gone) :
    r ∈ l.extended fuel b op ∨ (r = {} ∧ ∃ m : Machine Native, m.IsLoaded) ∨ r ∈ l.gone := by
  by_cases hkeep : op = .destroyAll
  · subst hkeep
    have hgone : r ∈ l.gone ++ l.extended fuel b .destroyAll := hr
    rcases List.mem_append.mp hgone with hold | hnew
    · exact .inr (.inr hold)
    · exact .inl hnew
  · obtain ⟨new, hrecord, hnew, _⟩ := exists_adds fuel b l hkeep
    rw [hrecord] at hr
    rcases List.mem_append.mp hr with hlive | hgone
    · exact (List.mem_append.mp hlive).imp_right fun hr => .inl (hnew r hr)
    · exact .inr (.inr hgone)

/-- Whatever an operation does, every record is in order and leads to a machine, or to none if the
operation has no answer. -/
theorem Agrees.exists_after_record (h : l.Agrees b) (hb : b.Registered)
    (hr : r ∈ (op.record fuel b l).live ++ (op.record fuel b l).gone) :
    ∃ p answer, Progress.loaded.after r.events = some p ∧ r.LeadsTo answer := by
  rcases mem_record hr with hextended | ⟨rfl, m, hloaded⟩ | hgone
  · obtain ⟨p, answer, hafter, hleads, _⟩ := h.exists_after_extended hb hextended
    exact ⟨p, answer, hafter, hleads⟩
  · exact ⟨.loaded, _, rfl, .loaded hloaded⟩
  · obtain ⟨hafter | hafter, m, hleads⟩ := h.gone r hgone
    · exact ⟨_, _, hafter, hleads⟩
    · exact ⟨_, _, hafter, hleads⟩

/-- An operation with an answer leads to a ledger that agrees with the bridge again. -/
theorem Agrees.record (h : l.Agrees b) (hb : b.Registered) (hop : op.after fuel b = some b') :
    (op.record fuel b l).Agrees b' := by
  by_cases hkeep : op = .destroyAll
  · subst hkeep
    obtain ⟨result, hresult, rfl⟩ := Option.map_eq_some_iff.mp hop
    obtain ⟨inner, _, rfl⟩ := Option.map_eq_some_iff.mp hresult
    have hrecord : Operation.destroyAll.record fuel b l =
        ⟨[], l.gone ++ l.extended fuel b .destroyAll⟩ := rfl
    rw [hrecord]
    refine ⟨rfl, fun k r i hr => by simp at hr, fun r hr => ?_⟩
    rcases List.mem_append.mp hr with hold | hnew
    · exact h.gone r hold
    · obtain ⟨p, answer, hafter, hleads, hends⟩ := h.exists_after_extended hb hnew
      obtain ⟨hanswer, hprogress⟩ := hends (by rw [hop]; rfl)
      obtain ⟨m, rfl⟩ := Option.isSome_iff_exists.mp hanswer
      refine ⟨?_, m, hleads⟩
      rw [hafter]
      exact (hprogress rfl).imp (congrArg some) (congrArg some)
  · obtain ⟨new, hrecord, hnew, hcount⟩ := exists_adds fuel b l hkeep
    rw [hrecord]
    refine ⟨?_, fun k r i' hr hi' => ?_, h.gone⟩
    · rw [List.length_append, length_extended, h.length, hcount b' hop]
    · have hfind' : b'.find ⟨k⟩ = .ok i' := Bridge.find_of_instance? hi'
      rcases hb.makes_or_loaded hop hfind' with
        ⟨i, hfind, hafter, m, hentered, hmachine⟩ | ⟨⟨error, hnone⟩, hloaded, hprogress⟩
      · obtain ⟨r₀, hdescribes, hget⟩ := h.exists_extended (Bridge.getElem?_of_find hfind) fuel op
        obtain ⟨hlt, _⟩ := List.getElem?_eq_some_iff.mp hget
        rw [List.getElem?_append_left hlt, hget] at hr
        cases hr
        refine ⟨hdescribes.after_extend hafter, ?_⟩
        -- If the host changes the store, it does so after everything that has been entered.
        have hleads := Record.LeadsTo.entered hdescribes.leads hentered
        obtain hsame | ⟨s, hs, hsame⟩ := hmachine
        · rw [hsame]
          exact hleads
        · rw [hsame]
          exact .changed hleads hs
      · have hlast : (l.extended fuel b op).length ≤ k := by
          rw [length_extended, h.length]
          by_contra hlt
          have hget := Array.getElem?_eq_getElem (Nat.lt_of_not_le hlt)
          cases hnone.symm.trans (Bridge.find_of_instance? hget)
        rw [List.getElem?_append_right hlast] at hr
        obtain ⟨rfl, _⟩ := hnew r (List.mem_of_getElem? hr)
        exact Record.describes_loaded hloaded hprogress

end Ledger

/-- Between the operations of the host the ledger agrees with the bridge. -/
theorem Bridge.Recorded.agrees {b : Bridge σ} {l : Ledger σ} (h : b.Recorded l) : l.Agrees b := by
  induction h with
  | new maxVms hookCapacity limits host => exact ⟨rfl, by simp, by simp⟩
  | after h hop ih => exact ih.record h.reachable.registered hop

end Swarm
