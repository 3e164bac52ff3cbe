import Swarm.Proofs.Isolation
import Swarm.Proofs.Nesting
import Swarm.Proofs.Operations

/-!
# Bounds on stack and frames

At every step of an execution the stack is within its bound, and so are the frames,
of which there may always be one: that of the body is made without asking. A frame
of a function or of a native function begins where the stack is not full, and only
its own result is pushed when it ends, so there is always room for the result.
-/

namespace Swarm

namespace Machine

variable {ν : Type} {m m' : Machine ν} {outer : Array Frame} {f : Frame} {returning : Bool}
  {called : Option ν}

/-- Stack and frames are within the bounds. -/
structure Within (m : Machine ν) (limits : Limits) : Prop where
  stack : m.stack.size ≤ limits.maxStack
  frames : m.frames.size ≤ max 1 limits.maxCallDepth

/-- Every function that is being called has room for its result. -/
def Roomy (m : Machine ν) : Prop :=
  ∀ (k : Nat) (f : Frame), m.frames[k]? = some f → f.kind ≠ .script →
    f.stackBase < m.limits.maxStack

/-- The innermost function has room for its result. -/
theorem Roomy.hasRoom (h : m.Roomy) (hframes : m.frames = outer.push f) (hkind : f.kind ≠ .script) :
    m.HasRoom := by
  refine ⟨outer, f, hframes, h outer.size f ?_ hkind⟩
  rw [hframes, Array.getElem?_push_size]

/-- A frame that is opened leaves room for the results of all functions. -/
theorem Opens.roomy {g : Frame} (h : m.Opens g m') (hlimits : m'.limits = m.limits)
    (hm : m.Roomy) : m'.Roomy := by
  intro k f hf hkind
  rw [hlimits]
  rw [h.frames, Array.getElem?_push] at hf
  split at hf
  · cases hf
    rw [h.base]
    exact h.room
  · exact hm k f hf hkind

/-- A new frame begins where the stack is not full; the others begin where they did. -/
theorem Alters.roomy (h : m.Alters outer f returning called m') (hframes : m.frames = outer.push f)
    (hlimits : m'.limits = m.limits) (hfits : m.Fits) (hm : m.Roomy) : m'.Roomy := by
  have houter {k : Nat} {g : Frame} (hg : outer[k]? = some g) (hkind : g.kind ≠ .script) :
      g.stackBase < m.limits.maxStack := by
    obtain ⟨hlt, _⟩ := Array.getElem?_eq_some_iff.mp hg
    refine hm k g ?_ hkind
    rw [hframes, Array.getElem?_push, if_neg (by omega)]
    exact hg
  have hlast (hkind : f.kind ≠ .script) : f.stackBase < m.limits.maxStack := by
    refine hm outer.size f ?_ hkind
    rw [hframes, Array.getElem?_push_size]
  intro k g hg hkind
  rw [hlimits]
  cases h with
  | works hframes' hsame _ =>
    rw [hframes', Array.getElem?_push] at hg
    split at hg
    · cases hg
      obtain ⟨hkind', _, hbase⟩ := Frame.eq_of_outline hsame
      rw [hbase]
      exact hlast (hkind' ▸ hkind)
    · exact houter hg hkind
  | enters hframes' _ _ hroom _ =>
    rw [hframes', Array.getElem?_push] at hg
    split at hg
    · cases hg
      exact hroom hfits
    · rw [Array.getElem?_push] at hg
      split at hg
      · cases hg
        exact hlast hkind
      · exact houter hg hkind
  | returns hframes' _ _ | ends hframes' _ _ =>
    rw [hframes'] at hg
    exact houter hg hkind

/-- Altering the frames keeps their number within the bound. -/
theorem Alters.depth_le (h : m.Alters outer f returning called m')
    (hframes : m.frames = outer.push f) (hm : m.frames.size ≤ max 1 m.limits.maxCallDepth) :
    m'.frames.size ≤ max 1 m.limits.maxCallDepth := by
  have hcount : m.frames.size = outer.size + 1 := by rw [hframes, Array.size_push]
  cases h with
  | works hframes' _ _ =>
    rw [hframes', Array.size_push]
    omega
  | enters hframes' _ _ _ hdepth =>
    rw [hframes', Array.size_push, Array.size_push]
    omega
  | returns hframes' _ _ | ends hframes' _ _ =>
    rw [hframes']
    omega

/-- Where there is room for a result, a return can only fail for want of one. -/
theorem ends_return {i : Instruction} (hreturn : i.isReturn = true) (hroom : m.HasRoom) :
    Action.Ends (execute i) m (fun called _ => called = none) fun error _ =>
      i = .ret1 ∧ error = .stackUnderflow ∧ m.stack.size ≤ m.stackFloor := by
  have hret {m : Machine ν} (hroom : m.HasRoom) (v : Value)
      (fails : RuntimeError → Machine ν → Prop) :
      Action.Ends (ret v) m (fun _ _ => True) fails := by
    obtain ⟨m', hret, _⟩ := exists_returns hroom m.store v
    have hret : ret v m = .ok () m' := hret
    unfold Action.Ends
    rw [hret]
    trivial
  cases i with
  | ret0 => exact (hret hroom .nil _).bind fun _ _ _ => Action.ends_pure rfl
  | ret1 =>
    have hpop : Action.Ends pop m (fun _ m' => m'.HasRoom) fun error _ =>
        Instruction.ret1 = .ret1 ∧ error = .stackUnderflow ∧ m.stack.size ≤ m.stackFloor :=
      ends_pop (fun _ _ _ _ => hroom) fun h => ⟨rfl, rfl, h⟩
    exact hpop.bind fun v m' hroom' => (hret hroom' v _).bind fun _ _ _ => Action.ends_pure rfl
  | _ => cases hreturn

end Machine

section Executions

variable {σ : Type} {hooks : HookTable σ} {m : Machine Native} {w : World σ}
  {e e' : Execution Native Traversal σ}

/-- The machine of an idle script is within its bounds. Unless it has faulted no call is in
progress. -/
structure Machine.Bounded (m : Machine Native) : Prop where
  tidy : m.Tidy fun _ => True
  depth : m.frames.size ≤ max 1 m.limits.maxCallDepth
  rest : m.isReady = true → m.AtRest

namespace Execution

/-- The machine is within its bounds. As long as the execution goes on, every function that is being
called has room for its result. -/
structure Bounded (e : Execution Native Traversal σ) : Prop where
  tidy : e.Tidy fun _ => True
  poised : e.Poised
  depth : e.machine.frames.size ≤ max 1 e.machine.limits.maxCallDepth
  room : e.Ongoing → e.machine.Roomy
  steady : e.machine.isReady = true → ∃ p, e.Steady p

/-- The execution is bounded, and its machine has the bounds of the earlier one. -/
structure BoundedFrom (m : Machine Native) (e : Execution Native Traversal σ) : Prop
    extends e.Bounded where
  limits : e.machine.limits = m.limits

/-- An execution that begins on an idle machine does not begin unless the machine is at rest. -/
theorem boundedFrom_of_tidyFrom (hm : m.Bounded) (htidy : e.TidyFrom (fun _ => True) m)
    (hpoised : e.Poised) (hdepth : e.machine.frames.size ≤ max 1 m.limits.maxCallDepth)
    (hroom : e.Ongoing → m.AtRest → e.machine.Roomy)
    (hsteady : m.AtRest → ∃ p, e.Steady p) : e.BoundedFrom m := by
  have hrest (hready : e.machine.isReady = true) : m.AtRest := by
    refine hm.rest ?_
    cases hfault : m.fault with
    | none => exact Option.isNone_iff_eq_none.mpr hfault
    | some f =>
      have hkept := htidy.retains.fault f hfault
      unfold Machine.isReady at hready
      rw [hkept] at hready
      cases hready
  refine ⟨⟨htidy.toTidy, hpoised, htidy.retains.limits ▸ hdepth, fun hgoes => ?_,
    fun hready => hsteady (hrest hready)⟩, htidy.retains.limits⟩
  refine hroom hgoes (hrest (htidy.ready fun error herror => ?_))
  obtain ⟨_, v, hv⟩ := hgoes _ herror
  cases hv

/-- A call from outside begins within the bounds. -/
theorem boundedFrom_startCall (hm : m.Bounded) (w : World σ) (callee : Value)
    (arguments : List Value) :
    (startCall m w [] callee arguments : Execution Native Traversal σ).BoundedFrom m := by
  have htidy : (startCall m w [] callee arguments : Execution Native Traversal σ).TidyFrom
      (fun _ => True) m := tidyFrom_startCall (fun _ _ => trivial) hm.tidy callee arguments
  have hopens := opens_startCall m w ([] : List (Suspended Traversal)) callee arguments
  refine boundedFrom_of_tidyFrom hm htidy (poised_startCall m w callee arguments) ?_ ?_ fun hrest =>
    ⟨.call, steady_startCall (by rw [hrest.2]; rfl) hrest.1 fun _ => hrest.noBody⟩
  · generalize startCall m w [] callee arguments = e at hopens
    cases hopens with
    | opens h _ =>
      have hdepth := h.depth
      dsimp only
      rw [h.frames, Array.size_push]
      omega
    | fails h => exact Nat.le_trans h.size hm.depth
  · intro hgoes hrest
    have hlimits := htidy.retains.limits
    generalize startCall m w [] callee arguments = e at hopens hgoes hlimits
    cases hopens with
    | fails h => exact absurd hgoes h.not_ongoing
    | opens h _ =>
      refine h.roomy hlimits fun k f hf => ?_
      rw [Array.getElem?_eq_none (by rw [hrest.2]; exact Nat.zero_le _)] at hf
      cases hf

/-- The body begins within the bounds. -/
theorem boundedFrom_startScript (hm : m.Bounded) (w : World σ) :
    (startScript m w [] : Execution Native Traversal σ).BoundedFrom m := by
  refine boundedFrom_of_tidyFrom hm (tidyFrom_startScript (fun _ _ => trivial) hm.tidy)
    (poised_startScript m w) ?_ (fun hgoes hrest => ?_)
    fun hrest => ⟨.script, steady_startScript hrest.1⟩
  · by_cases hready : m.isReady = true
    · have hempty := (hm.rest hready).2
      unfold startScript
      rw [if_pos hready]
      simp only [Machine.enterScript, Array.size_push]
      omega
    · unfold startScript
      rw [if_neg hready]
      exact hm.depth
  · unfold startScript
    rw [if_pos hrest.1]
    intro k f hf hkind
    simp only [Machine.enterScript, Array.eq_empty_of_size_eq_zero hrest.2] at hf
    rw [Array.getElem?_push] at hf
    split at hf
    · cases hf
      exact absurd rfl hkind
    · cases hf

/-- One step keeps within the bounds. -/
theorem Bounded.step (h : e.Bounded) : (e.step (Native.system hooks)).BoundedFrom e.machine := by
  have hforwards := Native.system_forwards hooks
  have hfails : (Native.system hooks).FailsAs (fun _ => True) e.machine :=
    fun _ _ _ _ _ _ => trivial
  obtain ⟨htidy, hexchanges⟩ := exchanges_step (fun _ _ => trivial) h.tidy hfails
  obtain ⟨hpoised, hgoes⟩ := h.poised.step hforwards
  have hlimits := hexchanges.limits
  have hsteady (hready : (e.step (Native.system hooks)).machine.isReady = true) :
      ∃ p, (e.step (Native.system hooks)).Steady p := by
    obtain ⟨p, hsteady⟩ := h.steady (isReady_of_step hready)
    exact ⟨p, hsteady.step hforwards⟩
  generalize e.step (Native.system hooks) = e' at *
  have hdone (hsize : e'.machine.frames.size ≤ e.machine.frames.size) (hnot : ¬e'.Ongoing) :
      e'.Bounded :=
    ⟨htidy, hpoised, hlimits ▸ Nat.le_trans hsize h.depth, fun hgoes => absurd hgoes hnot, hsteady⟩
  refine ⟨?_, hlimits⟩
  cases hgoes with
  | stays _ _ hsame => exact hsame ▸ h
  | closes _ _ _ hsame =>
    subst hsame
    exact hdone (Nat.le_of_eq (congrArg Array.size frames_close)) not_ongoing_close
  | unwinds hfails => exact hdone hfails.size hfails.not_ongoing
  | furthers hgoes hfurthers =>
    cases hfurthers with
    | fails hfails => exact hdone hfails.size hfails.not_ongoing
    | alters hframes _ _ halters _ =>
      exact ⟨htidy, hpoised, hlimits ▸ halters.depth_le hframes h.depth,
        fun _ => halters.roomy hframes hlimits h.tidy.machine.fits (h.room hgoes), hsteady⟩

end Execution

end Executions

section Lives

open Execution

variable {σ : Type} {s s' : Stage σ}

/-- The machine is within its bounds, and so is the execution in whose middle it is. -/
def Stage.Bounded : Stage σ → Prop
  | .idle m => m.Bounded
  | .busy e => e.Bounded

/-- What happens to the store of an idle machine does not matter. -/
theorem Machine.Bounded.withStore {m : Machine Native} (h : m.Bounded) (s : Store Native) :
    Machine.Bounded { m with store := s } :=
  ⟨⟨h.tidy.fits, h.tidy.fault⟩, h.depth, h.rest⟩

/-- A machine that has been left is at rest unless it has faulted. -/
theorem Execution.Bounded.left {m : Machine Native} {w : World σ} {activation : Activation}
    {result : Except RuntimeError Value}
    (h : (⟨m, w, activation, .leaving result, []⟩ : Execution Native Traversal σ).Bounded) :
    m.Bounded := by
  refine ⟨h.tidy.machine, h.depth, fun hready => ?_⟩
  obtain ⟨p, hsteady⟩ := h.steady hready
  have hphase := hsteady.phase
  cases result with
  | ok v => exact ⟨hready, hphase.2.2 rfl⟩
  | error error => cases hready.symm.trans (hphase rfl)

/-- No move leads out of the bounds, and the bounds themselves stay the same. -/
theorem Stage.Next.bounded (h : s.Next s') (hs : s.Bounded) :
    s'.Bounded ∧ s'.machine.limits = s.machine.limits := by
  have hstore {m m' : Machine Native} {w w' : World σ} {delivery : Option (Value × List Value)}
      (hm : m.Bounded) (hnext : m.nextDelivery w = (delivery, m', w')) :
      m'.Bounded ∧ m'.limits = m.limits := by
    have hm' : (m.nextDelivery w).2.1 = m' := by rw [hnext]
    rw [← hm']
    exact ⟨hm.withStore _, rfl⟩
  cases h with
  | change _ => exact ⟨Machine.Bounded.withStore hs _, rfl⟩
  | drop hnext => exact hstore hs hnext
  | @hear m m' w w' listener arguments hnext =>
    obtain ⟨hm', hlimits⟩ := hstore hs hnext
    have hcall := boundedFrom_startCall hm' w' listener arguments
    exact ⟨hcall.toBounded, hcall.limits.trans hlimits⟩
  | body m w =>
    have hbody := boundedFrom_startScript hs w
    exact ⟨hbody.toBounded, hbody.limits⟩
  | call m w name =>
    have hcall := boundedFrom_startCall hs w (m.store.global (Utf8.encode name)) []
    exact ⟨hcall.toBounded, hcall.limits⟩
  | step hooks e =>
    have hstep : (e.step (Native.system hooks)).BoundedFrom e.machine := Execution.Bounded.step hs
    exact ⟨hstep.toBounded, hstep.limits⟩
  | leave m w activation result => exact ⟨Execution.Bounded.left hs, rfl⟩

/-- A machine that is loaded is within its bounds. -/
theorem Machine.bounded_loaded {image : Bytes} {program : Program}
    (h : Program.ofBytes image = .ok program) (limits : Limits) (contextId : UInt16) :
    (Machine.loaded program limits contextId).Bounded := by
  have hrest := Machine.atRest_loaded program limits contextId
  refine ⟨Machine.IsLoaded.tidy ⟨image, program, limits, contextId, h, rfl⟩, ?_, fun _ => hrest⟩
  rw [hrest.2]
  exact Nat.zero_le _

/-- Whatever a machine comes to, it is within its bounds. -/
theorem Stage.Reached.bounded (h : s.Reached) : s.Bounded := by
  induction h with
  | load h limits contextId => exact Machine.bounded_loaded h limits contextId
  | next _ hnext ih => exact (hnext.bounded ih).1
  | release _ ih => exact Machine.Bounded.withStore ih _

/-- The bounds of a machine never change. -/
theorem Stage.Leads.limits (h : s.Leads s') (hs : s.Bounded) :
    s'.machine.limits = s.machine.limits := by
  have hboth : s'.Bounded ∧ s'.machine.limits = s.machine.limits := by
    induction h with
    | refl => exact ⟨hs, rfl⟩
    | tail _ hnext ih =>
      obtain ⟨hbounded, hlimits⟩ := hnext.bounded ih.1
      exact ⟨hbounded, hlimits.trans ih.2⟩
  exact hboth.2

end Lives

section Results

variable {σ : Type} {sys : NativeSystem Native Traversal σ} {e : Execution Native Traversal σ}

namespace Execution.Bounded

/-- A function that returns finds room for its result. -/
theorem running_of_return (he : e.Bounded) {i : Instruction} (hi : e.instruction? = some i)
    (hreturn : i.isReturn = true)
    (hkind : ∀ f, e.machine.frames.back? = some f → f.kind ≠ .script) :
    (e.step sys).phase = .running ∨
      i = .ret1 ∧ e.machine.stack.size ≤ e.machine.stackFloor ∧
        (e.step sys).phase = .leaving (.error .stackUnderflow) := by
  have hgoes : e.Ongoing := ongoing_of_ne (by simp [running_of_instruction? hi])
  obtain ⟨hdecode, hstep⟩ := step_of_instruction? sys hi
  have hdeep : 0 < e.machine.frames.size := by
    unfold instruction? at hi
    rw [running_of_instruction? hi] at hi
    dsimp only at hi
    split at hi
    · omega
    · cases hi
  obtain ⟨outer, f, hframes⟩ := Array.eq_push_of_size_ne_zero (Nat.ne_of_gt hdeep)
  have hnative : f.kind ≠ .script := hkind f (by rw [hframes, Array.back?_push])
  have hroom := (he.room hgoes).hasRoom hframes hnative
  have hends := Machine.ends_return (m := { e.machine with pc := e.machine.pc + i.size })
    hreturn hroom
  unfold Action.Ends at hends
  rw [← Machine.executeNext_eq hdecode] at hends
  rw [hstep]
  unfold advance
  dsimp only
  split <;> rename_i heq <;> rw [heq] at hends
  · exact .inl rfl
  · cases hends
  · obtain ⟨hi, rfl, hlow⟩ := hends
    exact .inr ⟨hi, hlow, rfl⟩

/-- A native function that ends with a value finds room for it, and the value is all that it leaves
on the stack. -/
theorem exists_of_finish (he : e.Bounded) (hsys : sys.Forwards)
    {reply : Reply Native Traversal σ} {v : Value} (hreply : e.reply? sys = some reply)
    (hmove : reply.move = .finish (.ok v)) :
    (e.step sys).phase = .running ∧ e.machine.Returns v (e.step sys).machine ∧
      (e.step sys).machine.stack = e.machine.stack.push v := by
  obtain ⟨activation, waiting, origin, hhosts, hgoes, hstep⟩ :=
    he.poised.exists_hosts hsys hreply fun error h => by cases hmove.symm.trans h
  obtain ⟨outer, f, hframes, hkind, hbase⟩ := hhosts.frame
  obtain ⟨m', hret, hreturns, _⟩ :=
    Machine.exists_returns ((he.room hgoes).hasRoom hframes hkind) reply.store v
  rw [hstep, hmove]
  simp only [follow, hret]
  obtain ⟨outer', f', hframes', _, hstack, _⟩ := id hreturns
  obtain ⟨hsame, _⟩ := Array.push_eq_push.mp (hframes'.symm.trans hframes)
  refine ⟨trivial, hreturns, ?_⟩
  have hwhole : e.machine.stack.shrink e.machine.stack.size = e.machine.stack := by simp
  rw [hstack, hsame, hbase, hwhole]

end Execution.Bounded

end Results

namespace Bridge

variable {σ : Type} {b b' : Bridge σ} {i : Instance} {e : Execution Native Traversal σ}

/-- A machine after an operation has been there before or has just been loaded. -/
theorem exists_of_after {fuel : Nat} {op : Operation σ} (hop : op.after fuel b = some b')
    {k : Nat} (hi : b'.instances[k]? = some i) :
    (∃ j, b.instances[k]? = some j) ∨
      ∃ program contextId, i.machine = .loaded program b.limits contextId := by
  have hreplace {vm : Handle} {j j' : Instance} (hfind : b.find vm = .ok j)
      (h : b'.instances = (b.replace vm j').instances) : ∃ j, b.instances[k]? = some j := by
    rcases getElem?_replace h hi with ⟨rfl, _⟩ | ⟨_, hj⟩
    · exact ⟨j, getElem?_of_find hfind⟩
    · exact ⟨i, hj⟩
  cases op with
  | load files bytecodePath debugPath contextId =>
    cases hop
    cases hload : b.load files bytecodePath debugPath contextId with
    | error e =>
      rw [hload] at hi
      exact .inl ⟨i, hi⟩
    | ok loaded =>
      rw [hload] at hi
      obtain ⟨_, program, debug, _, hb'⟩ := gains_of_load hload
      change loaded.1.instances[k]? = some i at hi
      rw [hb', Array.getElem?_push] at hi
      split at hi
      · cases hi
        exact .inr ⟨program, contextId, rfl⟩
      · exact .inl ⟨i, hi⟩
  | step vm =>
    left
    obtain ⟨result, hresult, rfl⟩ := Option.map_eq_some_iff.mp hop
    match result with
    | .error e => exact ⟨i, hi⟩
    | .ok (outcome, b') =>
      obtain ⟨j, j', world, hfind, _, hb'⟩ := exists_of_step hresult
      have hinstances : b'.instances = (b.replace vm j').instances := by rw [hb']
      exact hreplace hfind hinstances
  | destroyAll =>
    obtain ⟨result, hresult, rfl⟩ := Option.map_eq_some_iff.mp hop
    obtain ⟨inner, _, rfl⟩ := Option.map_eq_some_iff.mp hresult
    cases hi
  | _ =>
    left
    cases touches_after hop trivial with
    | nothing hinstances _ => exact ⟨i, hinstances ▸ hi⟩
    | store hfind _ hinstances _ => exact hreplace hfind hinstances

/-- Every machine has the bounds of the bridge. -/
theorem Reachable.limits (h : b.Reachable) (hi : i ∈ b.instances) :
    i.machine.limits = b.limits := by
  induction h generalizing i with
  | new maxVms hookCapacity limits host => cases Array.not_mem_empty i hi
  | @after b b' h fuel op hop ih =>
    rw [(settings_after hop).1]
    obtain ⟨k, hk⟩ := Array.mem_iff_getElem?.mp hi
    have hdescends {j : Instance} (hj : b.instances[k]? = some j)
        (hlead : j.machine.Descends σ i.machine) : i.machine.limits = b.limits := by
      have hmem := Array.mem_of_getElem? hj
      have hbounded : (Stage.idle j.machine : Stage σ).Bounded := (h.reached hmem).bounded
      rw [← ih hmem]
      rcases hlead with hlead | ⟨m, hlead, hm⟩
      · exact hlead.limits hbounded
      · rw [hm]
        exact hlead.limits hbounded
    rcases follows_after hop k i hk with ⟨j, hj, hlead⟩ | ⟨hnone, _⟩
    · exact hdescends hj hlead
    · rcases exists_of_after hop hk with ⟨j, hj⟩ | ⟨program, contextId, hloaded⟩
      · cases hnone.symm.trans hj
      · rw [hloaded]
        unfold Machine.loaded
        rw [Machine.new_eq]
        rfl

/-- Every execution under way has the bounds of its bridge. -/
theorem Reachable.limits_underway (h : b.Reachable) (he : b.Underway e) :
    e.machine.limits = b.limits := by
  obtain ⟨i, hi, hlead⟩ := he.leads
  rw [← h.limits hi]
  exact Stage.Leads.limits hlead (h.reached hi).bounded

/-- What stays within the bounds of a bridge, at every step of every execution. -/
structure StaysWithin (b : Bridge σ) : Prop where
  limits : ∀ i ∈ b.instances, i.machine.limits = b.limits
  idle : ∀ i ∈ b.instances, i.machine.Within b.limits
  underway : ∀ e, b.Underway e → e.machine.Within b.limits
  /-- A function that returns may lack a result, but not the room for it. -/
  functions : ∀ e i, b.Underway e → e.instruction? = some i → i.isReturn = true →
    (∀ f, e.machine.frames.back? = some f → f.kind ≠ .script) →
    (e.step (Native.system b.hooks)).phase = .running ∨
      i = .ret1 ∧ e.machine.stack.size ≤ e.machine.stackFloor ∧
        (e.step (Native.system b.hooks)).phase = .leaving (.error .stackUnderflow)
  /-- A native function that ends with a value returns it. -/
  natives : ∀ e reply v, b.Underway e → e.reply? (Native.system b.hooks) = some reply →
    reply.move = .finish (.ok v) → (e.step (Native.system b.hooks)).phase = .running ∧
      e.machine.Returns v (e.step (Native.system b.hooks)).machine

/-- Whatever the bounds are, stack and frames stay within them, except that there is room for the
frame of the body also if no call is allowed; and no result is lost for want of room. -/
theorem Reachable.staysWithin (h : b.Reachable) : b.StaysWithin := by
  have hunderway {e : Execution Native Traversal σ} (he : b.Underway e) : e.Bounded :=
    (h.reached_underway he).bounded
  have hwithin {m : Machine Native} (hlimits : m.limits = b.limits) (hfits : m.Fits)
      (hdepth : m.frames.size ≤ max 1 m.limits.maxCallDepth) : m.Within b.limits :=
    ⟨hlimits ▸ hfits, hlimits ▸ hdepth⟩
  refine ⟨fun i hi => h.limits hi, fun i hi => ?_, fun e he => ?_,
    fun e i he hi hreturn hkind => ?_, fun e reply v he hreply hmove => ?_⟩
  · have hi' : i.machine.Bounded := (h.reached hi).bounded
    exact hwithin (h.limits hi) hi'.tidy.fits hi'.depth
  · have he' := hunderway he
    exact hwithin (h.limits_underway he) he'.tidy.machine.fits he'.depth
  · exact (hunderway he).running_of_return hi hreturn hkind
  · obtain ⟨hphase, hreturns, _⟩ :=
      (hunderway he).exists_of_finish (Native.system_forwards b.hooks) hreply hmove
    exact ⟨hphase, hreturns⟩

/-- The execution of the body of the first script after a number of steps. -/
def bodyAt? (b : Bridge σ) (n : Nat) : Option (Execution Native Traversal σ) :=
  match b.find ⟨0⟩ with
  | .error _ => none
  | .ok i =>
    if i.machine.isReady && !i.stepped then
      some ((Execution.step (Native.system b.hooks))^[n] (.startScript i.machine b.world []))
    else none

/-- A step of the body of the first script is under way on the bridge. -/
theorem underway_of_bodyAt? {n : Nat} (h : b.bodyAt? n = some e) : b.Underway e := by
  unfold bodyAt? at h
  split at h
  · cases h
  · rename_i i hfind
    split at h
    · rename_i hfirst
      cases h
      rw [Bool.and_eq_true, Bool.not_eq_true'] at hfirst
      refine .step hfind hfirst.1 (.body hfirst.2) ?_
      induction n with
      | zero => exact .refl
      | succ n ih =>
        rw [Function.iterate_succ_apply']
        exact .step ih
    · cases h

end Bridge

/-- A script whose body calls a function that returns its argument, and a debug-symbol table without
entries. -/
def Files.identity : Files := fun path =>
  if path = "script" then
    .ok [0x48, 0x49, 0x56, 0x45, 1, 0, 0, 17, 0, 0, 0, 6, 13, 0, 0, 0, 3, 7, 0, 0, 0, 16, 1, 0,
      14, 1, 0, 18]
  else .ok [0x48, 0x44, 0x42, 0x47, 0, 0]

namespace Bridge

/-- A bridge with room for two values and two frames, into which the script has been loaded. -/
def brimful : Bridge Unit :=
  let b : Bridge Unit := .new 1 0 ⟨2, 2⟩ ()
  b.attempt ((b.load Files.identity "script" "symbols" 7).map Prod.fst)

/-- The bridge is reachable. -/
theorem reachable_brimful : brimful.Reachable := by
  have hnew : (Bridge.new 1 0 ⟨2, 2⟩ () : Bridge Unit).Reachable := .new 1 0 ⟨2, 2⟩ ()
  have hload : (Operation.load Files.identity "script" "symbols" 7).after 0
      (.new 1 0 ⟨2, 2⟩ ()) = some brimful := rfl
  exact hnew.after hload

/-- The stack is full at the call and the frames are full at the return, which succeeds. -/
theorem staysWithin_brimful : brimful.StaysWithin ∧ ∃ e e', brimful.Underway e ∧
    e.instruction? = some (.call 1) ∧ e.machine.stack.size = 2 ∧ brimful.Underway e' ∧
    e'.instruction? = some .ret1 ∧ e'.machine.frames.size = 2 ∧
    (e'.step (Native.system brimful.hooks)).phase = .running := by
  have hstays := Reachable.staysWithin reachable_brimful
  have hcall : (brimful.bodyAt? 2).any (fun e => decide
      (e.instruction? = some (.call 1) ∧ e.machine.stack.size = 2)) = true := by decide +kernel
  have hreturn : (brimful.bodyAt? 4).any (fun e => decide
      (e.instruction? = some .ret1 ∧ e.machine.frames.size = 2 ∧
        e.machine.frames.back?.all (fun f => f.kind ≠ .script) = true ∧
        e.machine.stackFloor < e.machine.stack.size)) = true := by decide +kernel
  obtain ⟨e, he, hat⟩ := (Option.any_eq_true _ _).mp hcall
  obtain ⟨hcall, hfull⟩ := of_decide_eq_true hat
  obtain ⟨e', he', hat'⟩ := (Option.any_eq_true _ _).mp hreturn
  obtain ⟨hreturn, hframes, hkind, hresult⟩ := of_decide_eq_true hat'
  have hunderway := underway_of_bodyAt? he'
  refine ⟨hstays, e, e', underway_of_bodyAt? he, hcall, hfull, hunderway, hreturn, hframes, ?_⟩
  have hfunction (f : Frame) (hf : e'.machine.frames.back? = some f) : f.kind ≠ .script := by
    rw [hf] at hkind
    exact of_decide_eq_true hkind
  rcases hstays.functions e' .ret1 hunderway hreturn rfl hfunction with hphase | ⟨_, hlow, _⟩
  · exact hphase
  · omega

end Bridge

end Swarm
