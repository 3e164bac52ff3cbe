import Swarm.Proofs.Parts
import Swarm.Proofs.Wiring
import Swarm.Proofs.Worlds

/-!
# Requests and their answers

A host asks the bridge to load a script, to register a hook, to step a machine or
to do something else to it, and to tell something about it. Every request is
answered. What a request makes of a machine, and its answer, depend on the machine
it names and on what all machines share: bounds, slots and the library, but not on
the other machines, and not on the world.
-/

namespace Swarm

/-- Something that the host wants to know about a machine. -/
inductive Query where
  | done
  | execState
  | explain
  | dump
  | neighbors
  | hasMoreOutbound
  | global (name : String)
  /-- The machine as it is. -/
  | whole

/-- What a query is answered. -/
inductive Reading where
  | flag (b : Bool)
  | state (s : ExecState)
  | text (t : String)
  | neighbors (ns : List Neighbor)
  | value (v : HostValue)
  | whole (i : Instance)

/-- Something that the host wants of a bridge. -/
inductive Request where
  | load (files : Files) (bytecodePath debugPath : String) (contextId : UInt16)
  | registerHook (vm : Handle) (slot : Nat) (name : String)
  | step (vm : Handle) (fuel : Nat)
  | resetNeighbors (vm : Handle)
  | addNeighbor (vm : Handle) (id : Int) (position : Position)
  | setAbsolutePosition (vm : Handle) (position : Position)
  | feedMessage (vm : Handle) (sender : Int) (payload : Bytes)
  | nextOutbound (vm : Handle)
  | ask (vm : Handle) (query : Query)

/-- What a request is answered. -/
inductive Answer where
  | loaded (result : Except LoadError Handle)
  | registered (result : Except HookError Unit)
  | stepped (result : Except BridgeError StepOutcome)
  | changed (result : Except BridgeError Unit)
  | taken (result : Except BridgeError (Option Bytes))
  | told (result : Except BridgeError Reading)

variable {σ : Type}

namespace Bridge

/-- The answer to a query. -/
def read (b : Bridge σ) (vm : Handle) : Query → Except BridgeError Reading
  | .done => (b.done vm).map .flag
  | .execState => (b.execState vm).map .state
  | .explain => (b.explain vm).map .text
  | .dump => (b.dump vm).map .text
  | .neighbors => (b.neighbors vm).map .neighbors
  | .hasMoreOutbound => (b.hasMoreOutbound vm).map .flag
  | .global name => (b.global vm name).map .value
  | .whole => (b.find vm).map .whole

/-- The answer to a request with the bridge after it: a failed one leaves the bridge as it is. -/
def answered {ε α : Type} (b : Bridge σ) (answer : Except ε α → Answer) :
    Except ε (α × Bridge σ) → Answer × Bridge σ
  | .ok (a, b') => (answer (.ok a), b')
  | .error e => (answer (.error e), b)

/-- Meet a request. There is no answer if the machine takes more steps than the fuel. -/
def perform (b : Bridge σ) : Request → Option (Answer × Bridge σ)
  | .load files bytecodePath debugPath contextId =>
    some (b.answered .loaded ((b.load files bytecodePath debugPath contextId).map Prod.swap))
  | .registerHook vm slot name =>
    some (b.answered .registered ((b.registerHook vm slot name).map ((), ·)))
  | .step vm fuel => (b.step fuel vm).map (b.answered .stepped)
  | .resetNeighbors vm => some (b.answered .changed ((b.resetNeighbors vm).map ((), ·)))
  | .addNeighbor vm id position =>
    some (b.answered .changed ((b.addNeighbor vm id position).map ((), ·)))
  | .setAbsolutePosition vm position =>
    some (b.answered .changed ((b.setAbsolutePosition vm position).map ((), ·)))
  | .feedMessage vm sender payload =>
    some (b.answered .changed ((b.feedMessage vm sender payload).map ((), ·)))
  | .nextOutbound vm => some (b.answered .taken (b.nextOutbound vm))
  | .ask vm query => some (.told (b.read vm query), b)

/-- Meet requests in their order. -/
def performAll (b : Bridge σ) : List Request → Option (List Answer × Bridge σ)
  | [] => some ([], b)
  | request :: rest => do
    let (answer, b) ← b.perform request
    let (answers, b) ← b.performAll rest
    return (answer :: answers, b)

end Bridge

/-- The request names the machine, or it loads a script or registers a hook. -/
def Request.concerns (vm : Handle) : Request → Bool
  | .load .. | .registerHook .. => true
  | .step other _ | .resetNeighbors other | .addNeighbor other _ _ | .setAbsolutePosition other _
  | .feedMessage other _ _ | .nextOutbound other | .ask other _ => other = vm

namespace Bridge

variable {b b' b₁ : Bridge σ} {vm other : Handle} {i i' : Instance}

/-- The bridges cannot be told apart through one machine: it is the same in both, and so is
everything that the machines share. -/
structure Resembles (vm : Handle) (b b' : Bridge σ) : Prop where
  same : b'.instance? vm = b.instance? vm
  vmCount : b'.vmCount = b.vmCount
  maxVms : b'.maxVms = b.maxVms
  limits : b'.limits = b.limits
  hooks : b'.hooks = b.hooks
  library : b'.library = b.library

/-- All host functions that a machine can call or be given answer by the call alone. -/
structure Stateless (b : Bridge σ) : Prop where
  hooks : b.hooks.Stateless
  library : ∀ name function, b.library.resolve name = .ok function →
    HostFunction.Stateless function

/-- Every bridge resembles itself. -/
theorem resembles_refl (vm : Handle) (b : Bridge σ) : b.Resembles vm b :=
  ⟨rfl, rfl, rfl, rfl, rfl, rfl⟩

/-- Resemblance goes both ways. -/
theorem Resembles.symm (h : b.Resembles vm b') : b'.Resembles vm b :=
  ⟨h.same.symm, h.vmCount.symm, h.maxVms.symm, h.limits.symm, h.hooks.symm, h.library.symm⟩

/-- Resemblance is transitive. -/
theorem Resembles.trans (h : b.Resembles vm b') (h' : b'.Resembles vm b₁) : b.Resembles vm b₁ :=
  ⟨h'.same.trans h.same, h'.vmCount.trans h.vmCount, h'.maxVms.trans h.maxVms,
    h'.limits.trans h.limits, h'.hooks.trans h.hooks, h'.library.trans h.library⟩

/-- Bridges that resemble each other differ in other machines and in the world. -/
theorem Resembles.exists_eq (h : b.Resembles vm b') : ∃ instances world,
    b' = { b with instances, world } := by
  obtain ⟨_, _, hmax, hlimits, hhooks, hlibrary⟩ := h
  obtain ⟨maxVms, limits, instances, hooks, library, world⟩ := b'
  cases hmax
  cases hlimits
  cases hhooks
  cases hlibrary
  exact ⟨instances, world, rfl⟩

/-- Bridges that resemble each other find the same machine. -/
theorem Resembles.find (h : b.Resembles vm b') : b'.find vm = b.find vm := find_congr h.same

section Others

/-- At most one machine and the world have changed. -/
def Disturbs (other : Handle) (b b' : Bridge σ) : Prop :=
  b' = b ∨ ∃ i w, b' = { b.replace other i with world := w }

/-- Changing the store of another machine disturbs nothing else. -/
theorem disturbs_updateStore (b : Bridge σ) (other : Handle) (f : Store Native → Store Native) :
    Disturbs other b (b.answered .changed ((b.updateStore other f).map ((), ·))).2 := by
  unfold updateStore
  cases b.find other with
  | error e => exact .inl rfl
  | ok i => exact .inr ⟨_, b.world, rfl⟩

/-- Taking a payload of another machine disturbs nothing else. -/
theorem disturbs_nextOutbound (b : Bridge σ) (other : Handle) :
    Disturbs other b (b.answered .taken (b.nextOutbound other)).2 := by
  unfold nextOutbound
  cases b.find other with
  | error e => exact .inl rfl
  | ok i => exact .inr ⟨_, b.world, rfl⟩

/-- A request that neither loads a script nor registers a hook disturbs the machine that it
names. -/
theorem disturbs_of_perform {request : Request} {answer : Answer}
    (h : b.perform request = some (answer, b')) :
    (∃ files bytecodePath debugPath contextId,
        request = .load files bytecodePath debugPath contextId) ∨
      (∃ vm slot name, request = .registerHook vm slot name) ∨
      ∃ other, (∀ vm, request.concerns vm = decide (other = vm)) ∧ Disturbs other b b' := by
  cases request with
  | load => exact .inl ⟨_, _, _, _, rfl⟩
  | registerHook => exact .inr (.inl ⟨_, _, _, rfl⟩)
  | step other fuel =>
    refine .inr (.inr ⟨other, fun _ => rfl, ?_⟩)
    obtain ⟨result, hstep, heq⟩ := Option.map_eq_some_iff.mp h
    cases result with
    | error e =>
      cases heq
      exact .inl rfl
    | ok stepped =>
      obtain ⟨outcome, b₁⟩ := stepped
      cases heq
      obtain ⟨_, i, world, _, _, rfl⟩ := exists_of_step hstep
      exact .inr ⟨i, world, rfl⟩
  | resetNeighbors other | addNeighbor other _ _ | setAbsolutePosition other _
  | feedMessage other _ _ =>
    obtain rfl : _ = b' := congrArg Prod.snd (Option.some.inj h)
    exact .inr (.inr ⟨other, fun _ => rfl, disturbs_updateStore b other _⟩)
  | nextOutbound other =>
    obtain rfl : _ = b' := congrArg Prod.snd (Option.some.inj h)
    exact .inr (.inr ⟨other, fun _ => rfl, disturbs_nextOutbound b other⟩)
  | ask other query =>
    cases h
    exact .inr (.inr ⟨other, fun _ => rfl, .inl rfl⟩)

/-- Exchanging another machine, and the world. -/
theorem resembles_replace_ne (hne : other ≠ vm) (i : Instance) (w : World σ) :
    b.Resembles vm { b.replace other i with world := w } where
  same := instance?_replace_ne rfl (Ne.symm hne)
  vmCount := Array.size_setIfInBounds
  maxVms := rfl
  limits := rfl
  hooks := rfl
  library := rfl

/-- A request that neither names the machine nor loads a script nor registers a hook. -/
theorem resembles_of_not_concerns {request : Request} {answer : Answer}
    (hother : request.concerns vm = false) (h : b.perform request = some (answer, b')) :
    b.Resembles vm b' := by
  rcases disturbs_of_perform h with ⟨_, _, _, _, rfl⟩ | ⟨_, _, _, rfl⟩ | ⟨other, hnames, hdisturbs⟩
  · cases hother
  · cases hother
  · rw [hnames] at hother
    rcases hdisturbs with rfl | ⟨i, w, rfl⟩
    · exact resembles_refl vm _
    · exact resembles_replace_ne (of_decide_eq_false hother) i w

end Others

section Own

/-- Exchanging the machine for the same one, whatever the worlds are. -/
theorem Resembles.replace (h : b.Resembles vm b') (i : Instance) (w w' : World σ) :
    Resembles vm { b.replace vm i with world := w } { b'.replace vm i with world := w' } where
  same := by
    have hsize : b'.instances.size = b.instances.size := h.vmCount
    change (b'.instances.setIfInBounds vm.index i)[vm.index]? =
      (b.instances.setIfInBounds vm.index i)[vm.index]?
    rw [Array.getElem?_setIfInBounds, Array.getElem?_setIfInBounds, hsize, if_pos rfl, if_pos rfl]
  vmCount := Array.size_setIfInBounds.trans (h.vmCount.trans Array.size_setIfInBounds.symm)
  maxVms := h.maxVms
  limits := h.limits
  hooks := h.hooks
  library := h.library

/-- Answers are the same, and so is what is left of the machine. -/
structure Agrees (vm : Handle) (x x' : Answer × Bridge σ) : Prop where
  answer : x'.1 = x.1
  bridge : x.2.Resembles vm x'.2

/-- Changing the store of the machine answers the same on both bridges. -/
theorem Resembles.updateStore (h : b.Resembles vm b') (f : Store Native → Store Native) :
    Agrees vm (b.answered .changed ((b.updateStore vm f).map ((), ·)))
      (b'.answered .changed ((b'.updateStore vm f).map ((), ·))) := by
  unfold Bridge.updateStore
  rw [h.find]
  cases b.find vm with
  | error e => exact ⟨rfl, h⟩
  | ok i => exact ⟨rfl, h.replace _ b.world b'.world⟩

/-- Taking a payload of the machine answers the same on both bridges. -/
theorem Resembles.nextOutbound (h : b.Resembles vm b') :
    Agrees vm (b.answered .taken (b.nextOutbound vm))
      (b'.answered .taken (b'.nextOutbound vm)) := by
  unfold Bridge.nextOutbound
  rw [h.find]
  cases b.find vm with
  | error e => exact ⟨rfl, h⟩
  | ok i => exact ⟨rfl, h.replace _ b.world b'.world⟩

/-- Asking about the machine answers the same on both bridges. -/
theorem Resembles.read (h : b.Resembles vm b') (query : Query) :
    b'.read vm query = b.read vm query := by
  cases query <;>
    simp only [Bridge.read, done, execState, explain, dump, neighbors, hasMoreOutbound, global,
      h.find]

/-- A step of the machine: it can hear neither of the world nor of other machines. -/
theorem Resembles.step (h : b.Resembles vm b') (hb : b.Stateless) (fuel : Nat) :
    Option.Rel (Agrees vm) ((b.step fuel vm).map (b.answered .stepped))
      ((b'.step fuel vm).map (b'.answered .stepped)) := by
  unfold Bridge.step
  rw [h.find, h.hooks]
  cases b.find vm with
  | error e => exact .some ⟨rfl, h⟩
  | ok i =>
    have hstep : (i.step b.hooks fuel b.world).map Turn.inner =
        (i.step b.hooks fuel b'.world).map Turn.inner :=
      i.deaf_step hb.hooks b.world b'.world
    dsimp only
    generalize i.step b.hooks fuel b.world = first at hstep ⊢
    generalize i.step b.hooks fuel b'.world = second at hstep ⊢
    cases rel_of_map_eq hstep with
    | none => exact .none
    | @some after after' hafter =>
      obtain ⟨outcome, i₁, w₁⟩ := after
      obtain ⟨outcome', i₁', w₁'⟩ := after'
      cases hafter
      exact .some ⟨rfl, h.replace i₁ w₁ w₁'⟩

/-- Adding the same machine. -/
theorem Resembles.push (h : b.Resembles vm b') (i : Instance) (library : HostLibrary σ)
    (w w' : World σ) :
    Resembles vm { b with instances := b.instances.push i, library, world := w }
      { b' with instances := b'.instances.push i, library, world := w' } where
  same := by
    have hsize : b'.instances.size = b.instances.size := h.vmCount
    have hsame : b'.instances[vm.index]? = b.instances[vm.index]? := h.same
    change (b'.instances.push i)[vm.index]? = (b.instances.push i)[vm.index]?
    rw [Array.getElem?_push, Array.getElem?_push, hsize, hsame]
  vmCount := by
    have hsize : b'.instances.size = b.instances.size := h.vmCount
    change (b'.instances.push i).size = (b.instances.push i).size
    rw [Array.size_push, Array.size_push, hsize]
  maxVms := h.maxVms
  limits := h.limits
  hooks := h.hooks
  library := rfl

/-- Bringing up the host is the same in every world, apart from the world after it. -/
theorem exists_bootstrap (library : HostLibrary σ) (w w' : World σ) : ∃ first library' w₁ w₁',
    library.bootstrap w = (first, library', w₁) ∧
      library.bootstrap w' = (first, library', w₁') := by
  unfold HostLibrary.bootstrap
  split <;> exact ⟨_, _, _, _, rfl, rfl⟩

/-- Loading the same script. -/
theorem Resembles.load (h : b.Resembles vm b') (files : Files) (bytecodePath debugPath : String)
    (contextId : UInt16) :
    Agrees vm (b.answered .loaded ((b.load files bytecodePath debugPath contextId).map Prod.swap))
      (b'.answered .loaded ((b'.load files bytecodePath debugPath contextId).map Prod.swap)) := by
  have hroom : b'.maxVms ≤ b'.vmCount ↔ b.maxVms ≤ b.vmCount := by rw [h.maxVms, h.vmCount]
  unfold Bridge.load
  by_cases hfull : b.maxVms ≤ b.vmCount
  · rw [if_pos hfull, if_pos (hroom.mpr hfull), h.maxVms]
    exact ⟨rfl, h⟩
  · rw [if_neg hfull, if_neg (mt hroom.mp hfull)]
    cases readDebug files debugPath with
    | error e => exact ⟨rfl, h⟩
    | ok debug =>
      cases readProgram files bytecodePath with
      | error e => exact ⟨rfl, h⟩
      | ok program =>
        obtain ⟨instances, w', rfl⟩ := h.exists_eq
        have hcount : instances.size = b.instances.size := h.vmCount
        obtain ⟨first, library, w₁, w₁', hboot, hboot'⟩ := exists_bootstrap b.library b.world w'
        simp only [bind, Except.bind, pure, Except.pure, addInstance, Bridge.vmCount, hcount,
          hboot, hboot', Except.map, Prod.swap_prod_mk, answered]
        exact ⟨rfl, h.push _ library _ _⟩

/-- Binding a slot is the same in every world, apart from the world after it. -/
theorem exists_bind (hooks : HookTable σ) (slot : Nat) (hook : Hook σ) (w w' : World σ) :
    (∃ e, hooks.bind slot hook w = .error e ∧ hooks.bind slot hook w' = .error e) ∨
      ∃ hooks' w₁ w₁', hooks.bind slot hook w = .ok (hooks', w₁) ∧
        hooks.bind slot hook w' = .ok (hooks', w₁') := by
  unfold HookTable.bind
  cases hooks.slots[slot]? with
  | none => exact .inl ⟨_, rfl, rfl⟩
  | some previous => exact .inr ⟨_, _, _, rfl, rfl⟩

/-- Exchanging a machine in the same way, and the slots. -/
theorem Resembles.adjust (h : b.Resembles vm b') {i i' : Instance} (hi : b.instance? other = some i)
    (hi' : b'.instance? other = some i') (f : Machine Native → Machine Native)
    (hooks : HookTable σ) (w w' : World σ) :
    Resembles vm { b.replace other { i with machine := f i.machine } with hooks, world := w }
      { b'.replace other { i' with machine := f i'.machine } with hooks, world := w' } := by
  have hreplaced : Resembles vm
      { b.replace other { i with machine := f i.machine } with world := w }
      { b'.replace other { i' with machine := f i'.machine } with world := w' } := by
    by_cases hvm : other = vm
    · subst hvm
      cases hi.symm.trans (h.same.symm.trans hi')
      exact h.replace _ w w'
    · exact ((resembles_replace_ne hvm _ w).symm.trans h).trans (resembles_replace_ne hvm _ w')
  exact ⟨hreplaced.same, hreplaced.vmCount, hreplaced.maxVms, hreplaced.limits, rfl,
    hreplaced.library⟩

/-- Registering the same hook for any machine. -/
theorem Resembles.registerHook (h : b.Resembles vm b') (other : Handle) (slot : Nat)
    (name : String) :
    Agrees vm (b.answered .registered ((b.registerHook other slot name).map ((), ·)))
      (b'.answered .registered ((b'.registerHook other slot name).map ((), ·))) := by
  have hsize : b'.instances.size = b.instances.size := h.vmCount
  unfold Bridge.registerHook
  cases hi : b.instance? other with
  | none =>
    have hi' : b'.instance? other = none := by
      unfold instance? at hi ⊢
      rw [Array.getElem?_eq_none_iff] at hi ⊢
      rwa [hsize]
    rw [hi']
    exact ⟨rfl, h⟩
  | some i =>
    obtain ⟨i', hi'⟩ : ∃ i', b'.instance? other = some i' := by
      obtain ⟨hlt, _⟩ := Array.getElem?_eq_some_iff.mp hi
      rw [← hsize] at hlt
      exact ⟨_, Array.getElem?_eq_getElem hlt⟩
    rw [hi']
    dsimp only
    rw [h.hooks, h.library]
    by_cases hslot : b.hooks.capacity ≤ slot
    · rw [if_pos hslot, if_pos hslot]
      exact ⟨rfl, h⟩
    · rw [if_neg hslot, if_neg hslot]
      cases b.library.resolve name with
      | error e => exact ⟨rfl, h⟩
      | ok function =>
        rcases exists_bind b.hooks slot ⟨name, function⟩ b.world b'.world with
          ⟨e, hbind, hbind'⟩ | ⟨hooks, w₁, w₁', hbind, hbind'⟩
        · simp only [bind, Except.bind, hbind, hbind']
          exact ⟨rfl, h⟩
        · simp only [bind, Except.bind, pure, Except.pure, hbind, hbind', Except.map, answered]
          have hadjust := h.adjust hi hi'
            (fun m => m.mapStore fun s => (s.define name (.hook slot other)).1) hooks
          exact ⟨rfl, hadjust _ _⟩

/-- A request that names the machine or what all machines share is met in the same way on bridges
that cannot be told apart through the machine. -/
theorem Resembles.perform (h : b.Resembles vm b') (hb : b.Stateless) {request : Request}
    (hconcerns : request.concerns vm = true) :
    Option.Rel (Agrees vm) (b.perform request) (b'.perform request) := by
  cases request with
  | load files bytecodePath debugPath contextId =>
    exact .some (h.load files bytecodePath debugPath contextId)
  | registerHook other slot name => exact .some (h.registerHook other slot name)
  | step other fuel =>
    obtain rfl : other = vm := of_decide_eq_true hconcerns
    exact h.step hb fuel
  | resetNeighbors other | addNeighbor other _ _ | setAbsolutePosition other _
  | feedMessage other _ _ =>
    obtain rfl : other = vm := of_decide_eq_true hconcerns
    exact .some (h.updateStore _)
  | nextOutbound other =>
    obtain rfl : other = vm := of_decide_eq_true hconcerns
    exact .some h.nextOutbound
  | ask other query =>
    obtain rfl : other = vm := of_decide_eq_true hconcerns
    exact .some ⟨congrArg Answer.told (h.read query), h⟩

end Own

section Functions

/-- Only the slots and the library matter. -/
theorem Stateless.congr (hb : b.Stateless) (hhooks : b'.hooks = b.hooks)
    (hlibrary : ∀ name, b'.library.resolve name = b.library.resolve name) : b'.Stateless where
  hooks := hhooks ▸ hb.hooks
  library name function hresolve := hb.library name function ((hlibrary name).symm.trans hresolve)

/-- Registering a hook brings in a function of the library only. -/
theorem Stateless.registerHook (hb : b.Stateless) {slot : Nat} {name : String}
    (h : b.registerHook other slot name = .ok b₁) : b₁.Stateless := by
  obtain ⟨i, function, hooks, world, _, hresolve, hbind, rfl, _, _, _, hlibrary⟩ :=
    exists_of_registerHook h
  have hfunction := hb.library name function hresolve
  refine ⟨fun k hook hk => ?_, fun name function hresolve => ?_⟩
  · change b₁.hooks.slot? k = some hook at hk
    rw [HookTable.slot?_of_bind hbind] at hk
    split at hk
    · cases hk
      exact hfunction
    · exact hb.hooks k hook hk
  · change b₁.library.resolve name = .ok function at hresolve
    rw [hlibrary] at hresolve
    exact hb.library name function hresolve

/-- A request brings in no other functions than those of the library. -/
theorem Stateless.perform (hb : b.Stateless) {request : Request} {answer : Answer}
    (h : b.perform request = some (answer, b')) : b'.Stateless := by
  rcases disturbs_of_perform h with ⟨files, bytecodePath, debugPath, contextId, rfl⟩ |
    ⟨other, slot, name, rfl⟩ | ⟨_, _, hdisturbs⟩
  · obtain rfl : _ = b' := congrArg Prod.snd (Option.some.inj h)
    cases hload : b.load files bytecodePath debugPath contextId with
    | error e => exact hb
    | ok loaded =>
      obtain ⟨_, program, debug, journal, hgains⟩ := gains_of_load hload
      change loaded.1.Stateless
      rw [hgains]
      exact hb.congr rfl fun _ => rfl
  · obtain rfl : _ = b' := congrArg Prod.snd (Option.some.inj h)
    cases hregister : b.registerHook other slot name with
    | error e => exact hb
    | ok b₁ => exact hb.registerHook hregister
  · rcases hdisturbs with rfl | ⟨i, w, rfl⟩
    · exact hb
    · exact hb.congr rfl fun _ => rfl

end Functions

end Bridge

end Swarm
