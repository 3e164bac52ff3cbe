import Swarm.Proofs.Globals
import Swarm.Proofs.HookCalls
import Swarm.Proofs.Operations

/-!
# What is bound and what is installed

Every registration that succeeds binds a slot and gives a closure to one machine.
A slot holds what was bound to it most recently, whichever machine it was bound
for. The closures stay as long as their machines are loaded, and no machine has a
native function for a slot without a binding; so no script ever finds a slot to
which nothing is bound.
-/

namespace Swarm

variable {σ : Type}

/-- A closure that a registration has given to a machine. -/
structure Installed where
  vm : Handle
  slot : Nat
  name : String
  closure : Value

/-- What registrations have brought about. -/
structure Wiring (σ : Type) where
  /-- The slots with what was bound to them, the most recent binding first. -/
  bindings : List (Nat × Hook σ) := []
  /-- The closures of the loaded machines. -/
  installed : List Installed := []

/-- What was bound to a slot most recently. -/
def Wiring.latest (wiring : Wiring σ) (slot : Nat) : Option (Hook σ) :=
  wiring.bindings.lookup slot

/-- The value of a global variable of a machine. -/
def Bridge.globalValue (b : Bridge σ) (vm : Handle) (name : String) : Value :=
  match b.find vm with
  | .ok i => i.machine.store.global (Utf8.encode name)
  | .error _ => .nil

/-- What has been brought about after an operation. Unloading all machines leaves the bindings. -/
def Wiring.after (b : Bridge σ) (wiring : Wiring σ) : Operation σ → Wiring σ
  | .registerHook vm slot name =>
    match b.library.resolve name, b.registerHook vm slot name with
    | .ok function, .ok b' =>
      { bindings := (slot, ⟨name, function⟩) :: wiring.bindings
        installed := ⟨vm, slot, name, b'.globalValue vm name⟩ :: wiring.installed }
    | _, _ => wiring
  | .destroyAll => { wiring with installed := [] }
  | _ => wiring

/-- What registrations have brought about in a sequence of operations. -/
inductive Bridge.Wired : Bridge σ → Wiring σ → Prop where
  | new (maxVms hookCapacity : Nat) (limits : Limits) (host : σ) :
      Wired (.new maxVms hookCapacity limits host) {}
  | after {b b' : Bridge σ} {wiring : Wiring σ} (h : Wired b wiring) {fuel : Nat}
      {op : Operation σ} (hop : op.after fuel b = some b') : Wired b' (wiring.after b op)

/-- A wired bridge is reachable. -/
theorem Bridge.Wired.reachable {b : Bridge σ} {wiring : Wiring σ} (h : b.Wired wiring) :
    b.Reachable := by
  induction h with
  | new maxVms hookCapacity limits host => exact .new maxVms hookCapacity limits host
  | after _ hop ih => exact ih.after hop

section Errors

/-- The error does not say that nothing is bound to a slot. -/
def RuntimeError.IsBound (error : RuntimeError) : Prop :=
  ∀ slot : Nat, error ≠ .raised s!"hook slot {slot} is not bound"

/-- Only an error that is raised can say that nothing is bound to a slot. -/
theorem RuntimeError.isBound_of_not_isRaised {error : RuntimeError} (h : ¬error.IsRaised) :
    error.IsBound := by
  rintro slot rfl
  exact h trivial

/-- The wording of an error of a hook differs after the word `hook`. -/
theorem RuntimeError.isBound_hook (name message : String) :
    (RuntimeError.raised s!"hook '{name}': {message}").IsBound := by
  intro slot heq
  have htext := congrArg String.toList (RuntimeError.raised.inj heq)
  simp only [String.toList_append, List.append_assoc] at htext
  have hletter := congrArg (fun letters : List Char => letters[5]?) htext
  rw [List.getElem?_append_left (by decide), List.getElem?_append_left (by decide)] at hletter
  exact absurd hletter (by decide)

variable {ν : Type} {m : Machine ν} {error : RuntimeError}

/-- Functions that every script has do not fail as those of the host do. -/
theorem Builtin.not_isRaised_of_enter {b : Builtin}
    (h : (b.enter m).1 = .finish (.error error)) : ¬error.IsRaised := by
  have hfinish {result : Except RuntimeError (Store ν)}
      (hresult : ∀ e, result = .error e → ¬e.IsRaised)
      (h : (finishWith m result).1 = .finish (.error error)) : ¬error.IsRaised := by
    cases result with
    | ok s => cases h
    | error e =>
      cases h
      exact hresult _ rfl
  have hargument {α : Type} {function : String} {index : Nat} {next : Value → Except RuntimeError α}
      (hnext : ∀ v e, next v = .error e → ¬e.IsRaised) (e : RuntimeError)
      (h : (m.argument function index >>= next) = .error e) : ¬e.IsRaised := by
    cases hvalue : m.argument function index with
    | error e' =>
      rw [hvalue] at h
      cases h
      exact Machine.not_isRaised_of_argument hvalue
    | ok v =>
      rw [hvalue] at h
      exact hnext v e h
  cases b with
  | send =>
    refine hfinish (hargument fun v e hv => ?_) h
    cases v <;> cases hv <;> exact id
  | listen =>
    refine hfinish (hargument fun v e hv => ?_) h
    cases v <;> cases hv <;> exact id
  | size =>
    refine hargument (fun v e hv => ?_) error (Move.finish.inj h)
    cases v <;> cases hv <;> exact id
  | foreach =>
    cases hbegin : beginForeach m with
    | ok traversal =>
      simp only [enter, hbegin] at h
      exact absurd h (traversal.move_ne_error error)
    | error e =>
      simp only [enter, hbegin] at h
      cases h
      refine hargument (fun table e => hargument (fun visitor e hv => ?_) e) _ hbegin
      cases table <;> cases hv <;> exact id

/-- Native functions never find a slot unbound if the slots of all hooks are bound. -/
theorem Native.failsAs {hooks : HookTable σ} {m : Machine Native}
    (hbound : ∀ slot owner, m.Offers (.hook slot owner) → (hooks.slot? slot).isSome) :
    (Native.system hooks).FailsAs RuntimeError.IsBound m := by
  intro native hoffers m' w error hmove
  cases native with
  | builtin b => exact RuntimeError.isBound_of_not_isRaised (Builtin.not_isRaised_of_enter hmove)
  | print => cases hmove
  | hook slot owner =>
    obtain ⟨hook, hhook⟩ := Option.isSome_iff_exists.mp (hbound slot owner hoffers)
    simp only [Native.system, Native.enter, HookTable.dispatch, hhook] at hmove
    split at hmove <;> cases hmove
    exact RuntimeError.isBound_hook _ _

end Errors

/-- Binding a slot again replaces what was bound to it and nothing else. -/
theorem HookTable.slot?_of_bind {hooks hooks' : HookTable σ} {slot : Nat} {hook : Hook σ}
    {w w' : World σ} (h : hooks.bind slot hook w = .ok (hooks', w')) (other : Nat) :
    hooks'.slot? other = if other = slot then some hook else hooks.slot? other := by
  unfold bind at h
  cases hslot : hooks.slots[slot]? with
  | none =>
    rw [hslot] at h
    cases h
  | some previous =>
    rw [hslot] at h
    cases h
    obtain ⟨hlt, _⟩ := Array.getElem?_eq_some_iff.mp hslot
    unfold slot?
    rw [Array.getElem?_setIfInBounds]
    by_cases hother : other = slot
    · subst hother
      rw [if_pos rfl, if_pos hlt, if_pos rfl]
      rfl
    · rw [if_neg (Ne.symm hother), if_neg hother]

/-- Defining functions that every script has adds no hook. -/
theorem Store.not_hook_of_foldl_install (builtins : List Builtin) (s : Store Native)
    (hs : ∀ named ∈ s.natives, ∀ slot owner, named.native ≠ .hook slot owner) :
    ∀ named ∈ (builtins.foldl (Builtin.install .builtin) s).natives, ∀ slot owner,
      named.native ≠ .hook slot owner := by
  induction builtins generalizing s with
  | nil => exact hs
  | cons b rest ih =>
    refine ih _ fun named hnamed => ?_
    rcases Array.mem_push.mp hnamed with hold | rfl
    · exact hs named hold
    · exact nofun

/-- A machine begins without hooks. -/
theorem Machine.IsLoaded.not_offers_hook {m : Machine Native} (h : m.IsLoaded) (slot : Nat)
    (owner : Handle) : ¬m.Offers (.hook slot owner) := by
  have hprint (s : Store Native) : s.installPrint.natives = s.natives.push ⟨"print", .print⟩ := rfl
  have hreset (s : Store Native) : s.resetNeighbors.natives = s.natives := rfl
  have hset (s : Store Native) (name : Bytes) (v : Value) :
      (s.setGlobal name v).natives = s.natives := rfl
  obtain ⟨image, program, limits, contextId, _, rfl⟩ := h
  rintro ⟨name, hname⟩
  unfold loaded at hname
  rw [new_eq, mapStore] at hname
  dsimp only at hname
  rw [hprint, hreset] at hname
  rcases Array.mem_push.mp hname with hbuiltin | hprinting
  · refine Store.not_hook_of_foldl_install _ _ (fun named hnamed => ?_) _ hbuiltin slot owner rfl
    rw [hset] at hnamed
    cases Array.not_mem_empty _ hnamed
  · cases hprinting

namespace Bridge

variable {b b' : Bridge σ} {vm : Handle} {i i' : Instance} {fuel : Nat} {op : Operation σ}

/-- Operations leave the native functions of a machine alone unless they register one for it. -/
theorem natives_of_after {allowed : RuntimeError → Prop}
    (hallowed : ∀ error : RuntimeError, ¬error.IsRaised → allowed error)
    (hb : ∀ i ∈ b.instances, i.machine.Tidy allowed)
    (hfails : ∀ i ∈ b.instances, (Native.system b.hooks).FailsAs allowed i.machine)
    (hop : op.after fuel b = some b') (hne : ∀ slot name, op ≠ .registerHook vm slot name)
    (hfind' : b'.find vm = .ok i') :
    (∃ i, b.find vm = .ok i ∧ i'.machine.store.natives = i.machine.store.natives) ∨
      (∃ error, b.find vm = .error error) ∧ i'.machine.IsLoaded := by
  cases op with
  | load files bytecodePath debugPath contextId =>
    cases hop
    cases hload : b.load files bytecodePath debugPath contextId with
    | error e =>
      rw [hload] at hfind'
      exact .inl ⟨i', hfind', rfl⟩
    | ok loaded =>
      rw [hload] at hfind'
      exact (find_of_load hload hfind').imp_left fun hfind => ⟨i', hfind, rfl⟩
  | step other =>
    left
    rcases find_of_step hop hfind' with ⟨hfind, _⟩ | ⟨rfl, i, _, _, hfind, _, hstep⟩
    · exact ⟨i', hfind, rfl⟩
    · obtain ⟨m, hpath, hmachine⟩ := Instance.path_of_step hstep
      have hi := mem_of_find hfind
      have hnatives : m.store.natives = i.machine.store.natives :=
        (hpath.exchanges hallowed (hb i hi) (hfails i hi)).2.natives
      refine ⟨i, hfind, ?_⟩
      rw [hmachine, ← hnatives]
      split <;> rfl
  | destroyAll =>
    obtain ⟨result, hresult, rfl⟩ := Option.map_eq_some_iff.mp hop
    obtain ⟨inner, _, rfl⟩ := Option.map_eq_some_iff.mp hresult
    cases getElem?_of_find hfind'
  | _ =>
    obtain ⟨i, hfind, _, _, hnatives⟩ := exists_of_minor hop trivial hfind'
    exact .inl ⟨i, hfind, hnatives hne⟩

end Bridge

namespace Wiring

variable {wiring : Wiring σ} {b b' : Bridge σ} {fuel : Nat} {op : Operation σ}

/-- What registrations have brought about is found in the bridge. Native functions call slots on
behalf of their own machine, and those slots are bound. -/
structure Agrees (wiring : Wiring σ) (b : Bridge σ) : Prop where
  latest : ∀ slot, b.hooks.slot? slot = wiring.latest slot
  installed : ∀ c ∈ wiring.installed, ∃ i k, b.find c.vm = .ok i ∧
    c.closure = .closure (.native k) ∧
      i.machine.store.natives[k]? = some ⟨c.name, .hook c.slot c.vm⟩
  owned : ∀ vm i, b.find vm = .ok i → ∀ slot owner, i.machine.Offers (.hook slot owner) →
    owner = vm ∧ (b.hooks.slot? slot).isSome
  tidy : ∀ i ∈ b.instances, i.machine.Tidy RuntimeError.IsBound

/-- No native function fails for want of a bound function. -/
theorem Agrees.failsAs (h : wiring.Agrees b) :
    ∀ i ∈ b.instances, (Native.system b.hooks).FailsAs RuntimeError.IsBound i.machine := by
  intro i hi
  obtain ⟨k, hk⟩ := Array.mem_iff_getElem?.mp hi
  have hfind : b.find ⟨k⟩ = .ok i := Bridge.find_of_instance? hk
  exact Native.failsAs fun slot owner hoffers => (h.owned _ i hfind slot owner hoffers).2

/-- Nothing is wired in a new bridge. -/
theorem agrees_new (maxVms hookCapacity : Nat) (limits : Limits) (host : σ) :
    ({} : Wiring σ).Agrees (.new maxVms hookCapacity limits host) where
  latest slot := by
    change (Array.replicate hookCapacity none)[slot]?.getD none = none
    rw [Array.getElem?_replicate]
    split <;> rfl
  installed c hc := by cases hc
  owned vm i hfind := by cases Bridge.getElem?_of_find hfind
  tidy i hi := by cases Array.not_mem_empty i hi

/-- A registration that succeeds. -/
theorem Agrees.registerHook (h : wiring.Agrees b) (hb : b.Reachable) {vm : Handle} {slot : Nat}
    {name : String} (hregister : b.registerHook vm slot name = .ok b')
    (htidy : ∀ i ∈ b'.instances, i.machine.Tidy RuntimeError.IsBound) :
    (wiring.after b (.registerHook vm slot name)).Agrees b' := by
  obtain ⟨i, function, hooks, world, hfind, hresolve, hbind, rfl, hinstances, _⟩ :=
    Bridge.exists_of_registerHook hregister
  let natives := i.machine.store.natives
  have hsound := hb.sound (Bridge.mem_of_find hfind)
  have hfind' := Bridge.find_replace hfind hinstances
  have hslot := HookTable.slot?_of_bind hbind
  have hother {other : Handle} (hne : other ≠ vm) : b'.find other = b.find other :=
    Bridge.find_congr (Bridge.instance?_replace_ne hinstances hne)
  have hwiring : wiring.after b (.registerHook vm slot name) =
      { bindings := (slot, ⟨name, function⟩) :: wiring.bindings
        installed := ⟨vm, slot, name, .closure (.native natives.size)⟩ :: wiring.installed } := by
    have hglobal : b'.globalValue vm name = .closure (.native natives.size) := by
      unfold Bridge.globalValue
      rw [hfind']
      dsimp only [Machine.mapStore]
      rw [Store.global_define hsound.store.consistent, Function.update_self]
    unfold after
    dsimp only
    rw [hresolve, hregister, ← hglobal]
  rw [hwiring]
  constructor
  · intro other
    rw [hslot, Wiring.latest, List.lookup_cons]
    by_cases hsame : other = slot
    · rw [if_pos hsame, beq_iff_eq.mpr hsame]
    · rw [if_neg hsame, beq_false_of_ne hsame]
      exact h.latest other
  · intro c hc
    rcases List.mem_cons.mp hc with rfl | hc
    · exact ⟨_, natives.size, hfind', rfl, Array.getElem?_push_size⟩
    · obtain ⟨j, k, hj, hclosure, hk⟩ := h.installed c hc
      -- The new native function comes after all others, so the closures keep theirs.
      by_cases hvm : c.vm = vm
      · rw [hvm] at hj
        cases hfind.symm.trans hj
        refine ⟨_, k, hvm ▸ hfind', hclosure, ?_⟩
        obtain ⟨hlt, _⟩ := Array.getElem?_eq_some_iff.mp hk
        change (natives.push _)[k]? = _
        rw [Array.getElem?_push_lt hlt, ← Array.getElem?_eq_getElem hlt]
        exact hk
      · exact ⟨j, k, (hother hvm).trans hj, hclosure, hk⟩
  · intro other j hj slot' owner hoffers
    have hkeep {owner : Handle} (hold : owner = other ∧ (b.hooks.slot? slot').isSome) :
        owner = other ∧ (b'.hooks.slot? slot').isSome := by
      refine ⟨hold.1, ?_⟩
      rw [hslot]
      split
      · rfl
      · exact hold.2
    by_cases hvm : other = vm
    · subst hvm
      cases hfind'.symm.trans hj
      obtain ⟨name', hmem⟩ := hoffers
      rcases Array.mem_push.mp hmem with hold | hnew
      · exact hkeep (h.owned other i hfind slot' owner ⟨name', hold⟩)
      · cases hnew
        exact ⟨rfl, by rw [hslot, if_pos rfl]; rfl⟩
    · rw [hother hvm] at hj
      exact hkeep (h.owned other j hj slot' owner hoffers)
  · exact htidy

/-- An operation that registers nothing. -/
theorem Agrees.other (h : wiring.Agrees b) (hop : op.after fuel b = some b')
    (hne : ∀ vm slot name, op ≠ .registerHook vm slot name) (hkeep : op ≠ .destroyAll)
    (htidy : ∀ i ∈ b'.instances, i.machine.Tidy RuntimeError.IsBound) : wiring.Agrees b' := by
  have hhooks := (Bridge.settings_after hop).2.1 hne
  have hnatives (vm : Handle) (i' : Instance) (hfind' : b'.find vm = .ok i') :=
    Bridge.natives_of_after (fun _ => RuntimeError.isBound_of_not_isRaised) h.tidy h.failsAs hop
      (hne vm) hfind'
  constructor
  · rw [hhooks]
    exact h.latest
  · intro c hc
    obtain ⟨i, k, hfind, hclosure, hk⟩ := h.installed c hc
    obtain ⟨i', hfind'⟩ := Bridge.exists_find_after hop hkeep hfind
    rcases hnatives _ i' hfind' with ⟨j, hj, hsame⟩ | ⟨⟨_, hnone⟩, _⟩
    · cases hfind.symm.trans hj
      exact ⟨i', k, hfind', hclosure, by rw [hsame, hk]⟩
    · cases hfind.symm.trans hnone
  · intro vm i' hfind' slot owner hoffers
    rw [hhooks]
    rcases hnatives vm i' hfind' with ⟨j, hj, hsame⟩ | ⟨_, hloaded⟩
    · refine h.owned vm j hj slot owner ?_
      unfold Machine.Offers at *
      rwa [← hsame]
    · exact absurd hoffers (hloaded.not_offers_hook slot owner)
  · exact htidy

/-- What is found in the bridge stays so after every operation. -/
theorem Agrees.after (h : wiring.Agrees b) (hb : b.Reachable) (hop : op.after fuel b = some b') :
    (wiring.after b op).Agrees b' := by
  have htidy : ∀ i ∈ b'.instances, i.machine.Tidy RuntimeError.IsBound :=
    Bridge.tidy_after (fun _ => RuntimeError.isBound_of_not_isRaised) h.tidy h.failsAs hop
  cases op with
  | registerHook vm slot name =>
    cases hresult : b.registerHook vm slot name with
    | error e =>
      have hsame : wiring.after b (.registerHook vm slot name) = wiring := by
        unfold Wiring.after
        dsimp only
        rw [hresult]
        split <;> rename_i heq <;> first | rfl | cases heq
      rw [hsame]
      change some (b.attempt (b.registerHook vm slot name)) = some b' at hop
      rw [hresult] at hop
      cases hop
      exact h
    | ok b'' =>
      change some (b.attempt (b.registerHook vm slot name)) = some b' at hop
      rw [hresult] at hop
      cases hop
      exact h.registerHook hb hresult htidy
  | destroyAll =>
    obtain ⟨result, hresult, rfl⟩ := Option.map_eq_some_iff.mp hop
    obtain ⟨inner, _, rfl⟩ := Option.map_eq_some_iff.mp hresult
    exact
      { latest := h.latest
        installed := fun c hc => by cases hc
        owned := fun vm i hfind => by cases Bridge.getElem?_of_find hfind
        tidy := htidy }
  | _ => exact h.other hop nofun nofun htidy

end Wiring

/-- The wiring of a bridge agrees with its slots and scripts. -/
theorem Bridge.Wired.agrees {b : Bridge σ} {wiring : Wiring σ} (h : b.Wired wiring) :
    wiring.Agrees b := by
  induction h with
  | new maxVms hookCapacity limits host => exact Wiring.agrees_new maxVms hookCapacity limits host
  | after h hop ih => exact ih.after h.reachable hop

end Swarm
