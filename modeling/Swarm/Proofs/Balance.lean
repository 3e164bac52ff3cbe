import Swarm.Proofs.Accounts
import Swarm.Proofs.Bounds
import Swarm.Proofs.Leftovers

/-!
# What is left on the stack between operations

Whatever the host enters gives back what it has pushed: a call that succeeds leaves
frames and stack as they were, and so does a body that runs to its end. A body that
ends with a return is different: its result stays on the stack for good. Between
operations the stack of a ready machine is therefore empty unless its body has ended
with a return; then one value is on it.
-/

namespace Swarm

variable {σ : Type}

/-- What is known about the messages of a machine keeps its moments in a minor operation. -/
theorem Account.moments_after_of_minor {p : Account σ} {b : Bridge σ} {vm : Handle} {i : Instance}
    {fuel : Nat} {op : Operation σ} (hfind : b.find vm = .ok i) (hminor : op.IsMinor) :
    (p.after fuel b vm op).moments = p.moments := by
  unfold after
  rw [hfind]
  cases op with
  | load | step | destroyAll => exact hminor.elim
  | feedMessage =>
    dsimp only
    split <;> rfl
  | nextOutbound =>
    dsimp only
    split
    · split <;> rfl
    · rfl
  | _ => exact List.append_nil _

namespace Bridge

variable {b b' : Bridge σ} {vm : Handle} {i i' : Instance} {p : Account σ} {fuel : Nat}
  {op : Operation σ}

/-- A minor operation changes nothing but the store of a machine. -/
theorem exists_store_of_minor (hop : op.after fuel b = some b') (hminor : op.IsMinor)
    (hfind' : b'.find vm = .ok i') : ∃ i s, b.find vm = .ok i ∧
      i' = { i with machine := { i.machine with store := s } } := by
  cases touches_after hop hminor with
  | nothing hinstances _ =>
    refine ⟨i', i'.machine.store, (find_congr ?_).symm.trans hfind', rfl⟩
    unfold instance?
    rw [hinstances]
  | @store other j s hother _ hinstances _ =>
    by_cases hvm : vm = other
    · subst hvm
      cases hfind'.symm.trans (find_replace hother hinstances)
      exact ⟨j, s, hother, rfl⟩
    · exact ⟨i', i'.machine.store,
        (find_congr (instance?_replace_ne hinstances hvm)).symm.trans hfind', rfl⟩

/-- Every machine of a reachable bridge has an account. -/
theorem Reachable.exists_accounted (h : b.Reachable) (vm : Handle) : ∃ p, b.Accounted vm p := by
  induction h with
  | new maxVms hookCapacity limits host => exact ⟨_, .new maxVms hookCapacity limits host⟩
  | after _ hop ih =>
    obtain ⟨p, hp⟩ := ih
    exact ⟨_, hp.after hop⟩

/-- Between the operations of the host one value is left for every return from the body. -/
theorem Accounted.carries (h : b.Accounted vm p) (hfind : b.find vm = .ok i) :
    i.Carries (p.moments.countP Moment.returnsFromBody) := by
  refine
    h.holds (P := fun p i => i.Carries (p.moments.countP Moment.returnsFromBody)) ?_ ?_ ?_ hfind
  · rintro i ⟨image, program, limits, contextId, _, hloaded⟩
    refine ⟨fun _ => ?_, fun _ => rfl⟩
    rw [hloaded]
    unfold Machine.loaded
    rw [Machine.new_eq]
    exact ⟨rfl, rfl, Nat.zero_le 1⟩
  · intro b b' p i i' fuel op hbefore hafter hop hminor hcarries
    obtain ⟨j, s, hfound, rfl⟩ := exists_store_of_minor hop hminor hafter
    cases hbefore.symm.trans hfound
    rw [Account.moments_after_of_minor hbefore hminor]
    exact hcarries.withStore s
  · intro b p i i' fuel outcome w' hreachable hbefore hdone hcarries
    rw [List.countP_append]
    exact hcarries.step (hreachable.registered.consistent i (mem_of_find hbefore)) hdone

end Bridge

section Entering

variable {b : Bridge σ} {i i' : Instance} {hooks : HookTable σ} {fuel n : Nat}
  {m m' : Machine Native} {w w' : World σ} {entrance : Entrance}

/-- While the messages that wait are heard, the listener is called from the second machine. -/
inductive Machine.Hears (hooks : HookTable σ) : Machine Native → World σ →
    Machine Native → World σ → Value → List Value → Prop where
  | now {m m' : Machine Native} {w w' : World σ} {listener : Value} {arguments : List Value}
      (h : m.nextDelivery w = (some (listener, arguments), m', w')) :
      Hears hooks m w m' w' listener arguments
  | later {m m' m₁ m₂ : Machine Native} {w w' w₁ w₂ : World σ} {listener listener' v : Value}
      {arguments arguments' : List Value} {fuel : Nat}
      (h : m.nextDelivery w = (some (listener, arguments), m', w'))
      (hcall : m'.callValue (Native.system hooks) fuel listener arguments w' =
        some ⟨.ok v, m₁, w₁⟩)
      (hrest : Hears hooks m₁ w₁ m₂ w₂ listener' arguments') :
      Hears hooks m w m₂ w₂ listener' arguments'

/-- An operation on the bridge enters the machine. -/
inductive Bridge.Enters (b : Bridge σ) : Machine Native → World σ → Entrance → Prop where
  | body {vm : Handle} {i : Instance} (hfind : b.find vm = .ok i)
      (hready : i.machine.isReady = true) (hfirst : i.stepped = false) :
      Enters b i.machine b.world .script
  | init {vm : Handle} {i : Instance} {fuel : Nat} {m : Machine Native} {w : World σ}
      (hfind : b.find vm = .ok i) (hready : i.machine.isReady = true) (hfirst : i.stepped = false)
      (hbody : i.machine.executeScript (Native.system b.hooks) fuel b.world =
        some ⟨.ok (), m, w⟩) : Enters b m w (.global "init" [])
  | inbound {vm : Handle} {i i' : Instance} {w : World σ} (hfind : b.find vm = .ok i)
      (hready : i.machine.isReady = true) (hbegun : i.Begun b.hooks b.world i' w) :
      Enters b i'.machine w .inbound
  | listener {vm : Handle} {i i' : Instance} {m : Machine Native} {w w' : World σ}
      {listener : Value} {arguments : List Value} (hfind : b.find vm = .ok i)
      (hready : i.machine.isReady = true) (hbegun : i.Begun b.hooks b.world i' w)
      (hready' : i'.machine.isReady = true)
      (hhears : i'.machine.Hears b.hooks w m w' listener arguments) :
      Enters b m w' (.call listener arguments)
  | step {vm : Handle} {i i' : Instance} {fuel n : Nat} {m : Machine Native} {w w' : World σ}
      (hfind : b.find vm = .ok i) (hready : i.machine.isReady = true)
      (hbegun : i.Begun b.hooks b.world i' w)
      (hheard : i'.machine.processInbound (Native.system b.hooks) fuel w = some ⟨.ok n, m, w'⟩) :
      Enters b m w' (.global "step" [])
  | destroy {fuel : Nat} {before rest : List Instance} {i : Instance} {diagnoses : List String}
      {w : World σ} (hinstances : b.instances.toList = before ++ i :: rest)
      (hbefore : Instance.destroyEach b.hooks fuel before b.world = some (diagnoses, w)) :
      Enters b i.machine w (.global "destroy" [])

/-- The beginning of hearing is a call of the listener. -/
theorem Machine.BeginsHearing.exists_hears {e : Execution Native Traversal σ}
    (h : m.BeginsHearing hooks w e) : ∃ m' w' listener arguments,
      m.Hears hooks w m' w' listener arguments ∧ e = .startCall m' w' [] listener arguments := by
  induction h with
  | now h => exact ⟨_, _, _, _, .now h, rfl⟩
  | later h hcall _ ih =>
    obtain ⟨m', w', listener, arguments, hhears, he⟩ := ih
    exact ⟨m', w', listener, arguments, .later h hcall hhears, he⟩

/-- The beginning of a call of a global function begins that entrance. -/
theorem Machine.BeginsCall.begins {name : String} {e : Execution Native Traversal σ}
    (h : m.BeginsCall w name e) :
    Entrance.Begins (Native.system hooks) m w (.global name []) e := by
  obtain ⟨_, hdefined, rfl⟩ := h
  exact .global name [] hdefined

/-- Every execution that is under way was begun by one of these entries. -/
theorem Bridge.Underway.exists_enters {e : Execution Native Traversal σ} (h : b.Underway e) :
    ∃ m w entrance, b.Enters m w entrance ∧ entrance.Meets (Native.system b.hooks) m w e := by
  cases h with
  | step hfind hready hbegin hpasses =>
    cases hbegin with
    | body hfirst => exact ⟨_, _, _, .body hfind hready hfirst, _, .script, hpasses⟩
    | init hfirst hbody hcall =>
      exact ⟨_, _, _, .init hfind hready hfirst hbody, _, hcall.begins, hpasses⟩
    | hear hbegun hready' hhear =>
      obtain ⟨m', w', listener, arguments, hhears, rfl⟩ := hhear.exists_hears
      exact ⟨_, _, _, .listener hfind hready hbegun hready' hhears, _, .call listener arguments,
        hpasses⟩
    | step hbegun hheard hcall =>
      exact ⟨_, _, _, .step hfind hready hbegun hheard, _, hcall.begins, hpasses⟩
  | destroy hinstances hbefore hbegin hpasses =>
    exact ⟨_, _, _, .destroy hinstances hbefore, _, hbegin.begins, hpasses⟩

/-- Hearing messages up to a call leaves as many values on the stack. -/
theorem Machine.Hears.leaves {listener : Value} {arguments : List Value}
    (h : m.Hears hooks w m' w' listener arguments) (hm : m.Leaves n) : m'.Leaves n := by
  induction h with
  | now h => exact hm.restored (restores_nextDelivery h).1
  | later h hcall _ ih =>
    have htaken := hm.restored (restores_nextDelivery h).1
    obtain ⟨hrestores, _⟩ :=
      restores_callValue (Native.system_forwards hooks) htaken.le_max hcall rfl
    exact ih (htaken.restored hrestores)

/-- The first part of a turn leaves the stack with some number of values. -/
theorem Instance.Begun.exists_leaves (h : i.Begun hooks w i' w') (hi : i.Carries n)
    (hready : i.machine.isReady = true) : ∃ n, i'.machine.Leaves n := by
  rcases h with ⟨_, rfl, _⟩ | ⟨hfirst, fuel, hbegin⟩
  · exact ⟨n, hi.leaves hready⟩
  · rw [← Told.tells_begin] at hbegin
    have hleaves := Told.leaves_begin hooks fuel (i, w) n hready (hi.leaves hready)
      (Nat.le_of_eq (hi.first hfirst))
    exact ⟨_, (hleaves () _ hbegin).2⟩

/-- No call is in progress in a machine that is entered, and there is nothing on the stack of one
whose body is run. -/
theorem Bridge.Enters.exists_leaves (h : b.Enters m w entrance) (hb : b.Reachable)
    (hready : m.isReady = true) : ∃ n, m.Leaves n ∧ (entrance = .script → n = 0) := by
  have hcarries (vm : Handle) (i : Instance) (hfind : b.find vm = .ok i) : ∃ n, i.Carries n := by
    obtain ⟨p, hp⟩ := hb.exists_accounted vm
    exact ⟨_, hp.carries hfind⟩
  cases h with
  | body hfind hready hfirst =>
    obtain ⟨n, hn⟩ := hcarries _ _ hfind
    exact ⟨n, hn.leaves hready, fun _ => hn.first hfirst⟩
  | init hfind hready hfirst hbody =>
    obtain ⟨n, hn⟩ := hcarries _ _ hfind
    have hempty := hn.first hfirst ▸ hn.leaves hready
    obtain ⟨_, hleaves⟩ := Machine.leaves_tellScript hready hempty b.world _ () hbody rfl
    exact ⟨_, hleaves, nofun⟩
  | inbound hfind hbefore hbegun =>
    obtain ⟨_, hn⟩ := hcarries _ _ hfind
    obtain ⟨n, hleaves⟩ := hbegun.exists_leaves hn hbefore
    exact ⟨n, hleaves, nofun⟩
  | listener hfind hready hbegun _ hhears =>
    obtain ⟨_, hn⟩ := hcarries _ _ hfind
    obtain ⟨n, hleaves⟩ := hbegun.exists_leaves hn hready
    exact ⟨n, hhears.leaves hleaves, nofun⟩
  | step hfind hready hbegun hheard =>
    obtain ⟨_, hn⟩ := hcarries _ _ hfind
    obtain ⟨n, hleaves⟩ := hbegun.exists_leaves hn hready
    obtain ⟨hrestores, _⟩ := Machine.restores_processInbound
      (Native.system_forwards b.hooks) hleaves.le_max hheard rfl
    exact ⟨n, hleaves.restored hrestores, nofun⟩
  | @destroy _ before rest i _ _ hinstances hbefore =>
    have hmem : i ∈ b.instances := Array.mem_toList_iff.mp (by simp [hinstances])
    obtain ⟨k, hk⟩ := Array.mem_iff_getElem?.mp hmem
    obtain ⟨n, hn⟩ := hcarries ⟨k⟩ i (find_of_instance? hk)
    exact ⟨n, hn.leaves hready, nofun⟩

/-- An entry that succeeds has found the machine ready. -/
theorem Entrance.isReady_of_run_ok {ending : Ending Native σ Unit}
    (hrun : entrance.run (Native.system hooks) fuel m w = some ending)
    (hok : ending.result = .ok ()) : m.isReady = true := by
  by_contra hfaulted
  rw [run_of_faulted (Bool.eq_false_iff.mpr hfaulted)] at hrun
  cases hrun
  cases hok

/-- A call that succeeds gives back what it has pushed. -/
theorem Bridge.Enters.restores (h : b.Enters m w entrance) (hb : b.Reachable)
    (hcall : entrance ≠ .script) {ending : Ending Native σ Unit}
    (hrun : entrance.run (Native.system b.hooks) fuel m w = some ending)
    (hok : ending.result = .ok ()) : m.Restores ending.machine ∧ ending.machine.isReady = true := by
  obtain ⟨n, hm, _⟩ := h.exists_leaves hb (Entrance.isReady_of_run_ok hrun hok)
  have hsys := Native.system_forwards b.hooks
  cases entrance with
  | script => exact absurd rfl hcall
  | call callee arguments =>
    obtain ⟨inner, hinner, rfl⟩ := Option.map_eq_some_iff.mp hrun
    obtain ⟨v, hv⟩ := Ending.exists_ok_of_map hok
    exact Machine.restores_callValue hsys hm.le_max hinner hv
  | global name arguments =>
    obtain ⟨inner, hinner, rfl⟩ := Option.map_eq_some_iff.mp hrun
    obtain ⟨v, hv⟩ := Ending.exists_ok_of_map hok
    exact Machine.restores_callGlobal hsys hm.le_max hinner hv
  | inbound =>
    obtain ⟨inner, hinner, rfl⟩ := Option.map_eq_some_iff.mp hrun
    obtain ⟨v, hv⟩ := Ending.exists_ok_of_map hok
    exact Machine.restores_processInbound hsys hm.le_max hinner hv

end Entering

namespace Bridge

variable {b : Bridge σ} {vm : Handle} {p : Account σ}

/-- What operations leave on the stacks. -/
structure GivesBack (b : Bridge σ) (vm : Handle) (p : Account σ) : Prop where
  /-- Between operations one value is left for every return from the body, of which there has been
  at most one. -/
  idle : ∀ i, b.find vm = .ok i → i.machine.isReady = true →
    i.machine.Leaves (p.moments.countP Moment.returnsFromBody)
  empty : ∀ i, b.find vm = .ok i → i.machine.isReady = true →
    (i.machine.stack = #[] ↔ ∀ moment ∈ p.moments, moment.returnsFromBody = false)
  /-- Every execution is begun by one of the entries of which the rest speaks. -/
  entries : ∀ e, b.Underway e →
    ∃ m w entrance, b.Enters m w entrance ∧ entrance.Meets (Native.system b.hooks) m w e
  /-- The body begins with nothing on the stack. If it succeeds, it leaves nothing there unless it
  ends with a return. -/
  body : ∀ m w fuel ending, b.Enters m w .script →
    m.executeScript (Native.system b.hooks) fuel w = some ending → ending.result = .ok () →
      m.Leaves 0 ∧ ending.machine.isReady = true ∧
        ending.machine.Leaves ((m.tellScript b.hooks fuel w).2.countP Moment.returnsFromBody)
  /-- A call that succeeds gives back everything. -/
  calls : ∀ m w entrance fuel ending, b.Enters m w entrance → entrance ≠ .script →
    entrance.run (Native.system b.hooks) fuel m w = some ending → ending.result = .ok () →
      m.Restores ending.machine ∧ ending.machine.isReady = true
  /-- What a native function leaves is its result. -/
  natives : ∀ e reply v, b.Underway e → e.reply? (Native.system b.hooks) = some reply →
    reply.move = .finish (.ok v) → e.machine.Returns v (e.step (Native.system b.hooks)).machine ∧
      (e.step (Native.system b.hooks)).machine.stack = e.machine.stack.push v

/-- Whatever the operations of the host are, everything that is entered gives back what it has
pushed, except for a body that ends with a return. -/
theorem Accounted.givesBack (h : b.Accounted vm p) : b.GivesBack vm p := by
  have hsys := Native.system_forwards b.hooks
  have hidle (i : Instance) (hfind : b.find vm = .ok i) (hready : i.machine.isReady = true) :
      i.machine.Leaves (p.moments.countP Moment.returnsFromBody) :=
    (h.carries hfind).leaves hready
  refine ⟨hidle, fun i hfind hready => ?_, fun e he => he.exists_enters,
    fun m w fuel ending henters hrun hok => ?_,
    fun m w entrance fuel ending henters hcall => henters.restores h.reachable hcall,
    fun e reply v he hreply hmove => ?_⟩
  · rw [← Array.size_eq_zero_iff, (hidle i hfind hready).size, List.countP_eq_zero]
    simp only [Bool.not_eq_true]
  · have hrun' : Entrance.script.run (Native.system b.hooks) fuel m w = some ending := hrun
    have hready := Entrance.isReady_of_run_ok hrun' hok
    obtain ⟨n, hm, hfirst⟩ := henters.exists_leaves h.reachable hready
    obtain rfl := hfirst rfl
    have hleaves := Machine.leaves_tellScript hready hm w ending () hrun hok
    rw [Nat.zero_add] at hleaves
    exact ⟨hm, hleaves⟩
  · have hbounded : e.Bounded := (h.reachable.reached_underway he).bounded
    exact (hbounded.exists_of_finish hsys hreply hmove).2

end Bridge

/-- A script whose body ends with a return, and a debug-symbol table without entries. -/
def Files.returning : Files := fun path =>
  if path = "script" then .ok [0x48, 0x49, 0x56, 0x45, 1, 0, 0, 6, 0, 0, 0, 3, 7, 0, 0, 0, 18]
  else .ok [0x48, 0x44, 0x42, 0x47, 0, 0]

namespace Bridge

/-- A bridge into which the script has been loaded. -/
def returning : Bridge Unit :=
  let b : Bridge Unit := .new 1 0 {} ()
  b.attempt ((b.load Files.returning "script" "symbols" 7).map Prod.fst)

/-- The same after the script has taken a step. -/
def returned : Bridge Unit :=
  ((Operation.step ⟨0⟩).after 19 returning).get (by decide +kernel)

/-- The account of the bridge after the load and the step. -/
theorem accounted_returned : returned.Accounted ⟨0⟩
    ((({} : Account Unit).after 0 (.new 1 0 {} ())
      ⟨0⟩ (.load Files.returning "script" "symbols" 7)).after 19 returning ⟨0⟩ (.step ⟨0⟩)) := by
  have hnew : (Bridge.new 1 0 {} () : Bridge Unit).Accounted ⟨0⟩ {} := .new 1 0 {} ()
  have hload : (Operation.load Files.returning "script" "symbols" 7).after 0
      (.new 1 0 {} ()) = some returning := rfl
  have hstep : (Operation.step ⟨0⟩).after 19 returning = some returned := (Option.some_get _).symm
  exact (hnew.after hload).after hstep

/-- The machine is ready, with the result on its stack. -/
theorem exists_find_returned : ∃ i, returned.find ⟨0⟩ = .ok i ∧ i.machine.isReady = true ∧
    i.machine.stack.map Value.kind = #[.int] := by
  have hcheck : (returned.find ⟨0⟩).toOption.any (fun i => decide
      (i.machine.isReady = true ∧ i.machine.stack.map Value.kind = #[.int])) = true := by
    decide +kernel
  obtain ⟨i, hfind, hat⟩ := exists_of_any_toOption hcheck
  exact ⟨i, hfind, of_decide_eq_true hat⟩

/-- The one return from the body is told, and everything else is given back. -/
theorem givesBack_returned : ∃ p : Account Unit, returned.Accounted ⟨0⟩ p ∧
    p.moments.countP Moment.returnsFromBody = 1 ∧ returned.GivesBack ⟨0⟩ p := by
  have hgives := Accounted.givesBack accounted_returned
  obtain ⟨i, hfind, hready, hstack⟩ := exists_find_returned
  refine ⟨_, accounted_returned, ?_, hgives⟩
  rw [← (hgives.idle i hfind hready).size, ← Array.size_map (f := Value.kind), hstack]
  rfl

/-- A value may lie on the stack of a machine that is ready between operations. -/
theorem keeps_result : returned.Reachable ∧ ∃ i, returned.find ⟨0⟩ = .ok i ∧
    i.machine.isReady = true ∧ i.machine.stack ≠ #[] := by
  obtain ⟨i, hfind, hready, hstack⟩ := exists_find_returned
  refine ⟨accounted_returned.reachable, i, hfind, hready, fun hempty => ?_⟩
  rw [hempty, Array.map_empty] at hstack
  cases hstack

end Bridge

end Swarm
