import Swarm.Machine.Execution
import Swarm.Proofs.SoundInstructions

/-!
# Sound executions

An execution is sound if its machine is, and if every value that waits outside the
machine is trusted by it: what native functions hold while they wait, and the
result that is on its way to one of them. A step keeps executions sound if native
functions leave the store sound and hand out only values that they could find.
-/

namespace Swarm

/-- The position in code at which the steps of an execution stand, one after the other. -/
inductive Execution.Passes {ν κ σ : Type} (sys : NativeSystem ν κ σ) (e : Execution ν κ σ) :
    Execution ν κ σ → Prop where
  | refl : Passes sys e e
  | step {e' : Execution ν κ σ} (h : Passes sys e e') : Passes sys e (e'.step sys)

variable {ν κ σ : Type} {sys : NativeSystem ν κ σ} {held : κ → List Value}

namespace Execution

variable {e e' : Execution ν κ σ}

/-- Steps after steps are steps. -/
theorem Passes.trans {e'' : Execution ν κ σ} (h : e.Passes sys e') (h' : e'.Passes sys e'') :
    e.Passes sys e'' := by
  induction h' with
  | refl => exact h
  | step _ ih => exact .step ih

/-- What a step preserves holds wherever an execution passes. -/
theorem Passes.preserves {P : Execution ν κ σ → Prop} (h : e.Passes sys e')
    (hstep : ∀ e, P e → P (e.step sys)) (he : P e) : P e' := by
  induction h with
  | refl => exact he
  | step _ ih => exact hstep _ ih

/-- A run that ends passes through its ending. -/
theorem passes_of_run {fuel : Nat} {ending : Ending ν σ Value} (h : e.run sys fuel = some ending) :
    ∃ activation, e.Passes sys
      ⟨ending.machine, ending.world, activation, .leaving ending.result, []⟩ := by
  induction fuel generalizing e with
  | zero =>
    unfold run at h
    split at h
    · cases h
      exact ⟨_, .refl⟩
    · cases h
    · contradiction
  | succ fuel ih =>
    unfold run at h
    split at h
    · cases h
      exact ⟨_, .refl⟩
    · contradiction
    · rename_i heq _
      cases heq
      obtain ⟨activation, hpasses⟩ := ih h
      exact ⟨activation, Passes.trans (.step .refl) hpasses⟩

end Execution

/-- What a native function asks for is trusted, and so is what it holds while it waits. -/
def Move.Trusted (held : κ → List Value) (m : Machine ν) : Move κ → Prop
  | .finish (.ok v) => m.Trusts v
  | .finish (.error e) => e.Expected m.program.code
  | .call callee arguments rest =>
    m.Trusts callee ∧ (∀ v ∈ arguments, m.Trusts v) ∧ ∀ v ∈ held rest, m.Trusts v
  | .runScript rest => ∀ v ∈ held rest, m.Trusts v

/-- The result on its way to a native function is trusted. -/
def Phase.Trusted (m : Machine ν) : Phase ν → Prop
  | .leaving (.ok v) => m.Trusts v
  | .leaving (.error e) => e.Expected m.program.code
  | .running | .entering _ _ => True

/-- A reply of a native function leaves the store sound and asks for trusted values. -/
structure Reply.Sound (held : κ → List Value) (m : Machine ν) (r : Reply ν κ σ) : Prop where
  store : m.store.Evolves m.program.code r.store
  move : r.move.Trusted held { m with store := r.store }

/-- Native functions reply to sound machines in a sound way. -/
structure NativeSystem.Sound (sys : NativeSystem ν κ σ) (held : κ → List Value) : Prop where
  enter : ∀ native (m : Machine ν) w, m.Sound → (sys.enter native m w).Sound held m
  resume : ∀ rest result (m : Machine ν) w, m.Sound → (∀ v ∈ held rest, m.Trusts v) →
    (Phase.leaving result).Trusted m → (sys.resume rest result m w).Sound held m

namespace Execution

variable {m m' : Machine ν} {w : World σ} {activation : Activation} {waiting : List (Suspended κ)}
  {e : Execution ν κ σ}

/-- An execution that has come from a sound machine. -/
structure SoundFrom (held : κ → List Value) (m : Machine ν) (e : Execution ν κ σ) : Prop where
  machine : m.Evolves e.machine
  waiting : ∀ s ∈ e.waiting, ∀ v ∈ held s.rest, e.machine.Trusts v
  phase : e.phase.Trusted e.machine

/-- The machine is sound, and all values outside of it are trusted. -/
abbrev Sound (held : κ → List Value) (e : Execution ν κ σ) : Prop := e.SoundFrom held e.machine

/-- What is sound from a later machine is sound from an earlier one. -/
theorem SoundFrom.of_evolves (h : m.Evolves m') (he : e.SoundFrom held m') :
    e.SoundFrom held m :=
  { he with machine := h.trans he.machine }

/-- What is sound from a machine is sound. -/
theorem SoundFrom.sound (he : e.SoundFrom held m) : e.Sound held :=
  { he with machine := he.machine.sound.evolves }

/-- What waits is trusted later as well. -/
theorem trusts_waiting (h : m.Evolves m')
    (hwaiting : ∀ s ∈ waiting, ∀ v ∈ held s.rest, m.Trusts v) :
    ∀ s ∈ waiting, ∀ v ∈ held s.rest, m'.Trusts v :=
  fun s hs v hv => h.grows.trusts (hwaiting s hs v hv)

/-- A failure with an expected error is sound. -/
theorem soundFrom_fail (hm : m.Sound) (hwaiting : ∀ s ∈ waiting, ∀ v ∈ held s.rest, m.Trusts v)
    (pc : Nat) {error : RuntimeError} (herror : error.Expected m.program.code) :
    (fail m w activation waiting pc error).SoundFrom held m := by
  have hfault := hm.recordFault pc herror
  refine ⟨hfault, trusts_waiting hfault hwaiting, ?_⟩
  change error.Expected (m.recordFault pc error).program.code
  rwa [hfault.grows.program]

/-- Pushing a trusted value with trusted arguments and calling it. -/
theorem keeps_pushCall (hm : m.Sound) {callee : Value} {arguments : List Value}
    (hcallee : m.Trusts callee) (harguments : ∀ v ∈ arguments, m.Trusts v) :
    m.Keeps (Machine.pushCall callee arguments) (fun _ _ => True) := by
  have hforM (arguments : List Value) (m : Machine ν) (hm : m.Sound)
      (harguments : ∀ v ∈ arguments, m.Trusts v) :
      m.Keeps (arguments.forM Machine.push) (fun _ _ => True) := by
    induction arguments generalizing m with
    | nil => exact Machine.keeps_pure hm trivial
    | cons v rest ih =>
      refine (Machine.keeps_push hm (harguments v List.mem_cons_self)).bind fun _ m' h _ => ?_
      exact ih m' h.sound fun w hw => h.grows.trusts (harguments w (List.mem_cons_of_mem v hw))
  refine (Machine.keeps_push hm hcallee).bind fun _ m₁ h₁ _ => ?_
  refine (hforM arguments m₁ h₁.sound fun v hv => h₁.grows.trusts (harguments v hv)).bind ?_
  exact fun _ m₂ h₂ _ => Machine.keeps_call h₂.sound _

/-- A call of a trusted value with trusted arguments begins in a sound way. -/
theorem soundFrom_startCall (hm : m.Sound)
    (hwaiting : ∀ s ∈ waiting, ∀ v ∈ held s.rest, m.Trusts v) {callee : Value}
    {arguments : List Value} (hcallee : m.Trusts callee)
    (harguments : ∀ v ∈ arguments, m.Trusts v) :
    (startCall m w waiting callee arguments).SoundFrom held m := by
  unfold startCall
  split
  · have hkeeps := keeps_pushCall hm hcallee harguments
    unfold Machine.Keeps Action.Ends at hkeeps
    split <;> rename_i heq <;> rw [heq] at hkeeps
    · exact ⟨hkeeps.1, trusts_waiting hkeeps.1 hwaiting, trivial⟩
    · exact ⟨hkeeps.1, trusts_waiting hkeeps.1 hwaiting, trivial⟩
    · refine (soundFrom_fail hkeeps.1.sound (trusts_waiting hkeeps.1 hwaiting) _ ?_).of_evolves
        hkeeps.1
      rw [hkeeps.1.grows.program]
      exact hkeeps.2
  · exact ⟨hm.evolves, hwaiting, trivial⟩

/-- The body of the script begins at the start of the code. -/
theorem soundFrom_startScript (hm : m.Sound)
    (hwaiting : ∀ s ∈ waiting, ∀ v ∈ held s.rest, m.Trusts v) :
    (startScript m w waiting).SoundFrom held m := by
  unfold startScript
  split
  · have hzero : m.program.code.IsBoundary 0 := m.program.isStart_zero.isBoundary
    have henter : m.Evolves m.enterScript := by
      refine hm.withControl hm.stack ?_ ?_ hzero
      · intro f hf v hv
        rcases Array.mem_push.mp hf with hf | rfl
        · exact hm.locals f hf v hv
        · rw [Array.mem_singleton.mp hv]
          exact Store.trusts_nil
      · intro f hf
        rcases Array.mem_push.mp hf with hf | rfl
        · exact hm.returnPc f hf
        · exact hzero
    exact ⟨henter, trusts_waiting henter hwaiting, trivial⟩
  · exact ⟨hm.evolves, hwaiting, trivial⟩

/-- Following a native function that asks for trusted values. -/
theorem soundFrom_follow (hm : m.Sound)
    (hwaiting : ∀ s ∈ waiting, ∀ v ∈ held s.rest, m.Trusts v) {origin : Option Nat}
    {move : Move κ} (hmove : move.Trusted held m) :
    (follow m w activation waiting origin move).SoundFrom held m := by
  have hsuspended {rest : κ} (hrest : ∀ v ∈ held rest, m.Trusts v) :
      ∀ s ∈ (⟨activation, origin, rest⟩ :: waiting : List (Suspended κ)),
        ∀ v ∈ held s.rest, m.Trusts v := by
    intro s hs
    rcases List.mem_cons.mp hs with rfl | hs
    · exact hrest
    · exact hwaiting s hs
  match move with
  | .finish (.ok v) =>
    have hkeeps := Machine.keeps_ret hm hmove
    unfold Machine.Keeps Action.Ends at hkeeps
    simp only [follow]
    split <;> rename_i heq <;> rw [heq] at hkeeps
    · exact ⟨hkeeps.1, trusts_waiting hkeeps.1 hwaiting, trivial⟩
    · refine (soundFrom_fail hkeeps.1.sound (trusts_waiting hkeeps.1 hwaiting) _ ?_).of_evolves
        hkeeps.1
      rw [hkeeps.1.grows.program]
      exact hkeeps.2
  | .finish (.error error) => exact soundFrom_fail hm hwaiting _ hmove
  | .call callee arguments rest =>
    exact soundFrom_startCall hm (hsuspended hmove.2.2) hmove.1 hmove.2.1
  | .runScript rest => exact soundFrom_startScript hm (hsuspended hmove)

/-- An activation ends with a trusted value. -/
theorem soundFrom_close (hm : m.Sound)
    (hwaiting : ∀ s ∈ waiting, ∀ v ∈ held s.rest, m.Trusts v) :
    (close m w activation waiting).SoundFrom held m := by
  unfold close
  cases activation.purpose with
  | script => exact ⟨hm.evolves, hwaiting, Store.trusts_nil⟩
  | call =>
    have hkeeps := Machine.keeps_pop hm
    unfold Machine.Keeps Action.Ends at hkeeps
    dsimp only
    split <;> rename_i heq <;> rw [heq] at hkeeps
    · exact ⟨hkeeps.1, trusts_waiting hkeeps.1 hwaiting, hkeeps.2⟩
    · refine ⟨hkeeps.1, trusts_waiting hkeeps.1 hwaiting, ?_⟩
      change RuntimeError.Expected _ _
      rw [hkeeps.1.grows.program]
      exact hkeeps.2

/-- Carrying out an instruction. -/
theorem soundFrom_advance (hm : m.Sound)
    (hwaiting : ∀ s ∈ waiting, ∀ v ∈ held s.rest, m.Trusts v) :
    (advance m w activation waiting).SoundFrom held m := by
  have hkeeps := Machine.keeps_executeNext hm
  unfold Machine.Keeps Action.Ends at hkeeps
  unfold advance
  dsimp only
  split <;> rename_i heq <;> rw [heq] at hkeeps
  · exact ⟨hkeeps.1, trusts_waiting hkeeps.1 hwaiting, trivial⟩
  · exact ⟨hkeeps.1, trusts_waiting hkeeps.1 hwaiting, trivial⟩
  · refine (soundFrom_fail hkeeps.1.sound (trusts_waiting hkeeps.1 hwaiting) _ ?_).of_evolves
      hkeeps.1
    rw [hkeeps.1.grows.program]
    exact hkeeps.2

/-- A reply of a native function is followed in a sound way. -/
theorem soundFrom_reply (hm : m.Sound)
    (hwaiting : ∀ s ∈ waiting, ∀ v ∈ held s.rest, m.Trusts v) {origin : Option Nat}
    {r : Reply ν κ σ} (hr : r.Sound held m) :
    (follow { m with store := r.store } r.world activation waiting origin r.move).SoundFrom
      held m := by
  have hstore := hm.withStore hr.store
  exact (soundFrom_follow hstore.sound (trusts_waiting hstore hwaiting) hr.move).of_evolves hstore

/-- One step of a sound execution. -/
theorem Sound.step (hsys : sys.Sound held) (he : e.Sound held) :
    (e.step sys).SoundFrom held e.machine := by
  have hm := he.machine.sound
  match e with
  | ⟨m, w, activation, .running, waiting⟩ =>
    simp only [Execution.step]
    split
    · exact soundFrom_advance hm he.waiting
    · exact soundFrom_close hm he.waiting
  | ⟨m, w, activation, .entering native origin, waiting⟩ =>
    exact soundFrom_reply hm he.waiting (hsys.enter native m w hm)
  | ⟨m, w, _, .leaving result, ⟨activation, origin, rest⟩ :: waiting⟩ =>
    have hrest : ∀ v ∈ held rest, m.Trusts v := he.waiting _ List.mem_cons_self
    exact soundFrom_reply hm (fun s hs => he.waiting s (List.mem_cons_of_mem _ hs))
      (hsys.resume rest result m w hm hrest he.phase)
  | ⟨m, w, activation, .leaving result, []⟩ => exact he

/-- Wherever a sound execution passes it is sound. -/
theorem SoundFrom.passes (hsys : sys.Sound held) {e' : Execution ν κ σ} (h : e.Passes sys e')
    (he : e.SoundFrom held m) : e'.SoundFrom held m :=
  h.preserves (fun _ he => (he.sound.step hsys).of_evolves he.machine) he

end Execution

end Swarm
