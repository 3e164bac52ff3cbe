import Swarm.Proofs.Resolution
import Swarm.Proofs.Wiring

/-!
# Registrations are whole or not at all

A registration writes to the slots, then to the native functions of a machine and to
its variables. Nothing that it checks can fail after the first of these writes, so a
registration that fails has written nothing. Its error is the first thing that is
wrong: the machine, the slot, or the function, which is looked up where the history
of the library says.
-/

namespace Swarm

variable {σ : Type}

namespace HookTable

variable {t t' : HookTable σ} {slot : Nat} {hook : Hook σ} {w w' : World σ}

/-- Binding a slot takes and makes no slots, and apart from reports the world stays as it is. -/
theorem capacity_of_bind (h : t.bind slot hook w = .ok (t', w')) :
    t'.capacity = t.capacity ∧ ∃ journal, w' = { w with journal } := by
  unfold bind at h
  split at h
  · cases h
  · rename_i previous _
    cases h
    refine ⟨Array.size_setIfInBounds, ?_⟩
    cases previous with
    | none => exact ⟨w.journal, rfl⟩
    | some _ => exact ⟨_, rfl⟩

/-- Every slot can be bound. -/
theorem exists_bind (h : slot < t.capacity) (hook : Hook σ) (w : World σ) :
    ∃ t' w', t.bind slot hook w = .ok (t', w') := by
  have hslot : t.slots[slot]? = some t.slots[slot] := Array.getElem?_eq_getElem h
  unfold bind
  rw [hslot]
  exact ⟨_, _, rfl⟩

end HookTable

/-- A store after a native function has been defined: there is one native function more, and the
variable of its name leads to it. -/
structure Store.Gains (s : Store Native) (name : String) (native : Native) (s' : Store Native) :
    Prop where
  natives : s'.natives = s.natives.push ⟨name, native⟩
  global : s'.global =
    Function.update s.global (Utf8.encode name) (.closure (.native s.natives.size))
  strings : ∀ id value, s.strings.Stores id value → s'.strings.Stores id value
  rest : s' = { s with strings := s'.strings, globals := s'.globals, natives := s'.natives }

/-- Defining a function gains one binding and one closure. -/
theorem Store.gains_define {s : Store Native} (hs : s.strings.Consistent) (name : String)
    (native : Native) : s.Gains name native (s.define name native).1 where
  natives := rfl
  global := Store.global_define hs name native
  strings _ _ h := hs.stores_of_intern _ h
  rest := rfl

namespace Bridge

open LibraryCall

section Stepwise

/-- Importing a module step by step; what was done before a failure stays. -/
def importing (name : String) : EStateM HookError (Bridge σ) Unit := do
  if !(← get).library.modules.contains name then throw (.moduleNotFound name)
  modify fun b => b.report .debug s!"imported host module '{name}'"
  modify fun b => { b with library := { b.library with imported := some name } }

/-- The machine with a handle, or the error that there is none. -/
def requireInstance (vm : Handle) : EStateM HookError (Bridge σ) Instance := fun b =>
  match b.instance? vm with
  | none => .error (.unknownVm vm) b
  | some i => .ok i b

/-- Registering a hook step by step; what was done before a failure stays. -/
def registering (vm : Handle) (slot : Nat) (name : String) :
    EStateM HookError (Bridge σ) Unit := do
  let _ ← requireInstance vm
  let b ← get
  if b.hooks.capacity ≤ slot then throw (.slotOutOfRange slot b.hooks.capacity)
  let function ← MonadExcept.ofExcept (b.library.resolve name)
  let (hooks, world) ← MonadExcept.ofExcept (b.hooks.bind slot ⟨name, function⟩ b.world)
  modify fun b => { b with hooks, world }
  -- The machine is asked for again when the slot has been bound already.
  let i ← requireInstance vm
  let machine := i.machine.mapStore fun s => (s.define name (.hook slot vm)).1
  modify fun b => b.replace vm { i with machine }
  modify fun b => b.report .debug s!"{vm.text}: hook '{name}' bound to slot {slot}"

/-- The end of work that is done as a whole: a failure leaves the bridge as it is. -/
def whole (b : Bridge σ) : Except HookError (Bridge σ) → EStateM.Result HookError (Bridge σ) Unit
  | .ok b' => .ok () b'
  | .error error => .error error b

/-- Importing fails before it changes anything. -/
theorem importing_eq (b : Bridge σ) (name : String) :
    importing name b = b.whole (b.importModule name) := by
  unfold importing importModule HostLibrary.importModule
  rw [get_bind]
  cases b.library.modules.contains name <;> rfl

/-- A machine that is loaded passes the check. -/
theorem requireInstance_bind {α : Type} {b : Bridge σ} {vm : Handle} {i : Instance}
    (h : b.instance? vm = some i) (next : Instance → EStateM HookError (Bridge σ) α) :
    (requireInstance vm >>= next) b = next i b := by
  simp only [bind, EStateM.bind, requireInstance, h]

/-- Registering fails before it changes anything. -/
theorem registering_eq (b : Bridge σ) (vm : Handle) (slot : Nat) (name : String) :
    registering vm slot name b = b.whole (b.registerHook vm slot name) := by
  have hstepwise {α β : Type} (a : α) (next : α → EStateM HookError (Bridge σ) β) :
      (MonadExcept.ofExcept (.ok a) >>= next) = next a := rfl
  have hwhole {α β : Type} (a : α) (next : α → Except HookError β) :
      (Except.ok a >>= next) = next a := rfl
  unfold registering registerHook
  cases hfind : b.instance? vm with
  | none => simp only [bind, EStateM.bind, requireInstance, hfind, whole]
  | some i =>
    refine (requireInstance_bind hfind _).trans ((get_bind b _).trans ?_)
    by_cases hslot : b.hooks.capacity ≤ slot
    · simp only [if_pos hslot]
      rfl
    · simp only [if_neg hslot]
      cases b.library.resolve name with
      | error e => rfl
      | ok function =>
        simp only [hstepwise, hwhole]
        cases hbind : b.hooks.bind slot ⟨name, function⟩ b.world with
        | error e => rfl
        | ok bound =>
          obtain ⟨hooks, world⟩ := bound
          have hagain : ({ b with hooks, world } : Bridge σ).instance? vm = some i := hfind
          exact requireInstance_bind hagain _

end Stepwise

variable {b b' : Bridge σ} {vm : Handle} {slot capacity : Nat} {name : String}
  {calls : List (LibraryCall σ)}

/-- Why a registration is refused: the machine, the slot and the function are looked at in this
order. -/
def refusal? (vmCount capacity : Nat) (calls : List (LibraryCall σ)) (vm : Handle) (slot : Nat)
    (name : String) : Option HookError :=
  if vmCount ≤ vm.index then some (.unknownVm vm)
  else if capacity ≤ slot then some (.slotOutOfRange slot capacity)
  else match resolution calls name with
    | .error error => some error
    | .ok _ => none

/-- Nothing is refused when machine, slot and function are there. -/
theorem refusal?_eq_none_iff {vmCount : Nat} :
    refusal? vmCount capacity calls vm slot name = none ↔
      vm.index < vmCount ∧ slot < capacity ∧ ∃ function, resolution calls name = .ok function := by
  unfold refusal?
  by_cases hvm : vmCount ≤ vm.index
  · simp [hvm]
  · by_cases hslot : capacity ≤ slot
    · simp [hvm, hslot]
    · cases resolution calls name <;> simp [hvm, hslot, Nat.lt_of_not_le]

/-- A registration has bound its slot and no other one, and has given the function to its machine
and to no other one. -/
structure Registers (b : Bridge σ) (vm : Handle) (slot : Nat) (name : String)
    (function : HostFunction σ) (b' : Bridge σ) : Prop where
  slots : ∀ other, b'.hooks.slot? other =
    if other = slot then some ⟨name, function⟩ else b.hooks.slot? other
  capacity : b'.hooks.capacity = b.hooks.capacity
  own : ∃ i s, b.find vm = .ok i ∧
    b'.find vm = .ok { i with machine := { i.machine with store := s } } ∧
      i.machine.store.Gains name (.hook slot vm) s
  others : ∀ other, other ≠ vm → b'.instance? other = b.instance? other
  rest : ∃ journal, b' = { b with
    instances := b'.instances
    hooks := b'.hooks
    world := { b.world with journal } }

/-- The number of slots is chosen when a bridge is made. -/
theorem Stocked.capacity_eq (h : b.Stocked capacity calls) : b.hooks.capacity = capacity := by
  induction h with
  | new maxVms limits host => exact Array.size_replicate
  | @after b b' _ _ fuel op hop ih =>
    refine Eq.trans ?_ ih
    have hother (hne : ∀ vm slot name, op ≠ .registerHook vm slot name) :
        b'.hooks.capacity = b.hooks.capacity :=
      congrArg HookTable.capacity ((settings_after hop).2.1 hne)
    cases op with
    | registerHook vm slot name =>
      cases hop
      cases hregister : b.registerHook vm slot name with
      | error e => rfl
      | ok b' =>
        obtain ⟨_, _, _, _, _, _, hbind, rfl, _⟩ := exists_of_registerHook hregister
        exact (HookTable.capacity_of_bind hbind).1
    | _ => exact hother nofun

/-- The first thing that is wrong is the error. -/
theorem registerHook_of_refusal (h : b.library.Recalls calls) {error : HookError}
    (hrefusal : refusal? b.vmCount b.hooks.capacity calls vm slot name = some error) :
    b.registerHook vm slot name = .error error := by
  unfold refusal? at hrefusal
  unfold registerHook
  by_cases hvm : b.vmCount ≤ vm.index
  · have hnone : b.instance? vm = none := Array.getElem?_eq_none hvm
    rw [if_pos hvm] at hrefusal
    cases hrefusal
    rw [hnone]
  · obtain ⟨i, hfind⟩ : ∃ i, b.instance? vm = some i :=
      ⟨_, Array.getElem?_eq_getElem (Nat.lt_of_not_le hvm)⟩
    rw [if_neg hvm] at hrefusal
    rw [hfind]
    dsimp only
    by_cases hslot : b.hooks.capacity ≤ slot
    · rw [if_pos hslot] at hrefusal ⊢
      cases hrefusal
      rfl
    · rw [if_neg hslot] at hrefusal ⊢
      rw [h.resolve_eq]
      cases hresolution : resolution calls name with
      | error e =>
        rw [hresolution] at hrefusal
        cases hrefusal
        rfl
      | ok function =>
        rw [hresolution] at hrefusal
        cases hrefusal

/-- If nothing is wrong the registration succeeds, and it changes what it should and nothing
else. -/
theorem exists_registerHook (h : b.library.Recalls calls) (hb : b.Reachable)
    (hrefusal : refusal? b.vmCount b.hooks.capacity calls vm slot name = none) :
    ∃ function b', resolution calls name = .ok function ∧
      b.registerHook vm slot name = .ok b' ∧ b.Registers vm slot name function b' := by
  obtain ⟨hvm, hslot, function, hresolution⟩ := refusal?_eq_none_iff.mp hrefusal
  obtain ⟨i, hinstance⟩ : ∃ i, b.instance? vm = some i := ⟨_, Array.getElem?_eq_getElem hvm⟩
  have hfind : b.find vm = .ok i := find_of_instance? hinstance
  obtain ⟨hooks, world, hbind⟩ := HookTable.exists_bind hslot ⟨name, function⟩ b.world
  obtain ⟨hcapacity, journal, rfl⟩ := HookTable.capacity_of_bind hbind
  have hregister : b.registerHook vm slot name = .ok (
      { b.replace vm { i with
          machine := i.machine.mapStore fun s => (s.define name (.hook slot vm)).1 } with
        hooks
        world := World.report { b.world with journal } .debug
          s!"{vm.text}: hook '{name}' bound to slot {slot}" } : Bridge σ) := by
    unfold registerHook
    rw [hinstance]
    dsimp only
    rw [if_neg (Nat.not_le_of_lt hslot), h.resolve_eq, hresolution]
    simp only [bind, Except.bind, hbind]
    rfl
  have hconsistent := (hb.sound (mem_of_find hfind)).store.consistent
  exact ⟨function, _, hresolution, hregister,
    { slots := HookTable.slot?_of_bind hbind
      capacity := hcapacity
      own := ⟨i, _, hfind, find_replace hfind rfl,
        Store.gains_define hconsistent name (.hook slot vm)⟩
      others := fun other hne => instance?_replace_ne rfl hne
      rest := ⟨_, rfl⟩ }⟩

/-- Functions are looked up where the history of the library says, and registrations change either
nothing or what they should. -/
structure RegistersWhole (b : Bridge σ) (capacity : Nat) (calls : List (LibraryCall σ)) :
    Prop where
  /-- No module is imported just if nothing has been imported. -/
  imported : b.library.importedModule?.map HostModule.name = lastImported calls
  resolves : ∀ name, b.library.resolve name = resolution calls name
  /-- A module that is installed under the imported name is the one to look in from then on. -/
  reinstalls : ∀ m : HostModule σ, lastImported calls = some m.name →
    ∀ name, (b.installModule m).library.resolve name = m.resolve name
  imports : ∀ name m, lastInstalled name calls = some m →
    ∃ b', b.importModule name = .ok b' ∧
      ∀ function, b'.library.resolve function = m.resolve function
  importFails : ∀ name, lastInstalled name calls = none →
    b.importModule name = .error (.moduleNotFound name)
  refuses : ∀ vm slot name error, refusal? b.vmCount capacity calls vm slot name = some error →
    b.registerHook vm slot name = .error error
  registers : ∀ vm slot name, refusal? b.vmCount capacity calls vm slot name = none →
    ∃ function b', resolution calls name = .ok function ∧
      b.registerHook vm slot name = .ok b' ∧ b.Registers vm slot name function b'
  /-- Importing and registering step by step leave the bridge as it is when they fail. -/
  stepwise : (∀ name, importing name b = b.whole (b.importModule name)) ∧
    ∀ vm slot name, registering vm slot name b = b.whole (b.registerHook vm slot name)

/-- Registrations are whole on every bridge whose library has a history. -/
theorem Stocked.registersWhole (h : b.Stocked capacity calls) :
    b.RegistersWhole capacity calls := by
  have hrecalls := h.recalls
  obtain rfl := h.capacity_eq
  refine ⟨?_, hrecalls.resolve_eq, fun m hm => ?_, fun name m hm => ?_, fun name hmissing => ?_,
    fun _ _ _ _ => registerHook_of_refusal hrecalls,
    fun _ _ _ => exists_registerHook hrecalls h.reachable,
    fun name => importing_eq b name, fun vm slot name => registering_eq b vm slot name⟩
  · rw [hrecalls.importedModule?_eq, map_name_current]
  · exact (hrecalls.install m b.world).resolve_of_current (current_install hm)
  · have hinstalled : (lastInstalled name calls).isSome := by
      rw [hm]
      rfl
    have himport := (importModule_eq hrecalls name).trans (if_pos hinstalled)
    have hafter : (Operation.importModule name).after 0 b = some _ :=
      congrArg (fun result => some (b.attempt result)) himport
    exact ⟨_, himport, (recalls_after hrecalls hafter).resolve_of_current (current_importModule hm)⟩
  · have hmissing' : ¬(lastInstalled name calls).isSome := by
      rw [hmissing]
      exact Bool.false_ne_true
    exact (importModule_eq hrecalls name).trans (if_neg hmissing')

/-- A module with a function and a plain attribute. -/
def equipped : HostModule Unit :=
  let query : HostFunction Unit := fun _ w => (.ok .none, w)
  (HostModule.add ⟨"swarm", {}⟩ "query" (.function query)).add "size" (.attribute (.int 3))

/-- A bridge with a script whose imported module has been installed again, with members this time,
after an import of another one has failed. -/
def restocked : Bridge Unit :=
  let b : Bridge Unit := (Bridge.new 1 1 {} ()).installModule ⟨"swarm", {}⟩
  let b := b.attempt (b.importModule "swarm")
  let b := b.attempt (b.importModule "hive")
  let b := b.installModule equipped
  b.attempt ((b.load Files.smallest "script" "symbols" 7).map Prod.fst)

/-- Registrations for another machine, of another slot, of what is missing and of what is not a
function are refused, and the one of `query` is not. -/
theorem registersWhole_restocked : ∃ calls, restocked.Stocked 1 calls ∧
    lastImported calls = some "swarm" ∧
      ([(⟨1⟩, 1, "query"), (⟨0⟩, 1, "missing"), (⟨0⟩, 0, "missing"), (⟨0⟩, 0, "size"),
          (⟨0⟩, 0, "query")].map fun (vm, slot, name) =>
        refusal? restocked.vmCount 1 calls vm slot name) =
          [some (.unknownVm ⟨1⟩), some (.slotOutOfRange 1 1),
            some (.unresolvedName "swarm" "missing"), some (.notCallable "swarm" "size"), none] ∧
      restocked.RegistersWhole 1 calls := by
  have hnew : (Bridge.new 1 1 {} () : Bridge Unit).Stocked 1 [] := .new 1 {} ()
  let install (m : HostModule Unit) : Operation Unit := .installModule m
  let select (name : String) : Operation Unit := .importModule name
  have hblank := hnew.after (show (install ⟨"swarm", {}⟩).after 0 _ = some _ from rfl)
  have hswarm := hblank.after (show (select "swarm").after 0 _ = some _ from rfl)
  have hhive := hswarm.after (show (select "hive").after 0 _ = some _ from rfl)
  have hagain := hhive.after (show (install equipped).after 0 _ = some _ from rfl)
  have hload := hagain.after
    (show (Operation.load Files.smallest "script" "symbols" 7).after 0 _ = some restocked from rfl)
  exact ⟨_, hload, by decide +kernel, by decide +kernel, Stocked.registersWhole hload⟩

end Bridge

end Swarm
