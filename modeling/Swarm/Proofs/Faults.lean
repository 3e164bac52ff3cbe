import Swarm.Proofs.Entries
import Swarm.Proofs.Spares

/-!
# Where faults are recorded

A step either leaves the fault of its machine as it is or fails; then it leaves the
innermost activation with the error, and the first failure of all is recorded as the
fault. An instruction fails where it starts. A native function that has been called
by an instruction fails where that instruction starts, but a call that a native
function makes fails where the machine would go on.
-/

namespace Swarm

namespace Machine

open Swarm.Action

variable {ν : Type} {m : Machine ν}

/-- Where the caller of the innermost frame goes on. -/
def resumption (m : Machine ν) : Nat :=
  match m.frames.back? with
  | none => m.pc
  | some frame => frame.returnPc

/-- The caller of the innermost frame goes on where that frame says. -/
theorem resumption_of_push {frames : Array Frame} {f : Frame} (h : m.frames = frames.push f) :
    m.resumption = f.returnPc := by
  unfold resumption
  rw [h, Array.back?_push]

/-- A result that finds no room is missed where the caller goes on. -/
theorem ends_ret_resumption (v : Value) (m : Machine ν) :
    Ends (ret v) m (fun _ m' => m'.pc = m.resumption) fun _ m' => m'.pc = m.resumption := by
  refine ends_ret (fun frames f hframes => ?_) fun hempty => ?_
  · rw [resumption_of_push hframes]
    exact ends_push (fun _ => rfl) fun _ => rfl
  · unfold resumption
    rw [Array.eq_empty_of_size_eq_zero hempty, Array.back?_empty]

/-- A call makes a frame that goes on where the call was made. A native function has not moved on
yet, and neither has a call that fails. -/
structure MakesFrame (m : Machine ν) (called : Option ν) (m' : Machine ν) (f : Frame) : Prop where
  frames : m'.frames = m.frames.push f
  kind : f.kind ≠ .script
  returnPc : f.returnPc = m.pc
  pc : called.isSome → m'.pc = m.pc

/-- Only frames and position of the machine matter. -/
theorem MakesFrame.of_eq {m₁ m' : Machine ν} {called : Option ν} {f : Frame}
    (h : m₁.MakesFrame called m' f) (hframes : m₁.frames = m.frames) (hpc : m₁.pc = m.pc) :
    m.MakesFrame called m' f where
  frames := hframes ▸ h.frames
  kind := h.kind
  returnPc := h.returnPc.trans hpc
  pc hcalled := (h.pc hcalled).trans hpc

/-- A call by an instruction makes a frame. -/
theorem makesFrame_call (n : Nat) (m : Machine ν) :
    Ends (call n) m (fun called m' => ∃ f, m.MakesFrame called m' f) fun _ m' => m'.pc = m.pc :=
  ends_call (fun _ _ _ _ _ => ⟨_, rfl, (nomatch ·), rfl, nofun⟩)
    (fun _ _ _ _ _ _ _ => ⟨_, rfl, (nomatch ·), rfl, fun _ => rfl⟩)
    (fun _ => rfl) (fun _ => rfl) (fun _ _ _ _ _ => rfl) fun _ => rfl

/-- A call from outside or from a native function makes a frame. -/
theorem makesFrame_pushCall (callee : Value) (arguments : List Value) (m : Machine ν) :
    Ends (pushCall callee arguments) m (fun called m' => ∃ f, m.MakesFrame called m' f)
      fun _ m' => m'.pc = m.pc := by
  refine ends_pushCall_of (fun m₁ hpiles _ => ?_) fun _ _ _ hpiles => hpiles.pc
  exact (makesFrame_call arguments.length m₁).imp
    (fun called m' ⟨f, hf⟩ => ⟨f, hf.of_eq hpiles.frames hpiles.pc⟩)
    fun _ _ h => h.trans hpiles.pc

end Machine

variable {ν κ σ : Type} {sys : NativeSystem ν κ σ}

/-- Where what a native function asks for fails, if it does. -/
def Move.position (m : Machine ν) (origin : Option Nat) : Move κ → Nat
  | .finish (.ok _) => origin.getD m.resumption
  | .finish (.error _) => origin.getD m.pc
  | .call .. | .runScript _ => m.pc

namespace Execution

variable {m m' : Machine ν} {w : World σ} {activation : Activation} {waiting : List (Suspended κ)}
  {e e' : Execution ν κ σ} {pc : Nat}

/-- Where the next step fails, if it does. -/
def position (sys : NativeSystem ν κ σ) : Execution ν κ σ → Nat
  | ⟨m, w, _, .entering native origin, _⟩ => (sys.enter native m w).move.position m origin
  | ⟨m, w, _, .leaving result, s :: _⟩ =>
    (sys.resume s.rest result m w).move.position m s.origin
  | ⟨m, _, _, _, _⟩ => m.pc

/-- The fault of the machine has stayed as it was, or there was a failure at the position; the
activation is left with its error, and the first failure is the fault. -/
def Records (m : Machine ν) (pc : Nat) (e : Execution ν κ σ) : Prop :=
  e.machine.fault = m.fault ∨
    ∃ error, e.phase = .leaving (.error error) ∧
      e.machine.fault = some (m.fault.getD ⟨pc, error⟩)

/-- A failure is recorded where it occurs. -/
theorem records_fail (hfault : m'.fault = m.fault) (error : RuntimeError) :
    (fail m' w activation waiting pc error).Records m pc := by
  refine .inr ⟨error, rfl, ?_⟩
  change (m'.recordFault pc error).fault = _
  unfold Machine.recordFault
  rw [hfault]
  cases hm : m.fault with
  | none => rfl
  | some f =>
    rw [hm] at hfault
    exact hfault

/-- A call that fails is recorded where the machine stands. -/
theorem records_startCall (callee : Value) (arguments : List Value) :
    (startCall m w waiting callee arguments).Records m m.pc := by
  have hspares := Machine.serves_pushCall callee arguments m
  have hframe := Machine.makesFrame_pushCall callee arguments m
  unfold Action.Ends at hspares hframe
  unfold startCall
  split
  · split <;> rename_i heq <;> rw [heq] at hspares hframe
    · exact .inl hspares.1.fault
    · exact .inl hspares.1.fault
    · rw [hframe]
      exact records_fail hspares.1.fault _
  · exact .inl rfl

/-- The beginning of the body records no failure. -/
theorem records_startScript (pc : Nat) :
    (startScript m w waiting : Execution ν κ σ).Records m pc := by
  unfold startScript
  split <;> exact .inl rfl

/-- A native function that fails is recorded where it was called. -/
theorem records_follow (origin : Option Nat) (move : Move κ) :
    (follow m w activation waiting origin move).Records m (move.position m origin) := by
  match move with
  | .finish (.ok v) =>
    have hspares := Machine.spares_ret v m
    have hpc := Machine.ends_ret_resumption v m
    unfold Action.Ends at hspares hpc
    simp only [follow, Move.position]
    split <;> rename_i heq <;> rw [heq] at hspares hpc
    · exact .inl hspares.fault
    · rw [← hpc]
      exact records_fail hspares.1.fault _
  | .finish (.error error) => exact records_fail rfl error
  | .call callee arguments rest => exact records_startCall callee arguments
  | .runScript rest => exact records_startScript _

/-- Taking the result of an activation records nothing. -/
theorem fault_close : (close m w activation waiting).machine.fault = m.fault := by
  have hspares := Machine.spares_pop m
  unfold Action.Ends at hspares
  unfold close
  split
  · rfl
  · split <;> rename_i heq <;> rw [heq] at hspares
    · exact hspares.fault
    · exact hspares.1.fault

/-- An instruction that fails is recorded where it stands. -/
theorem records_advance : (advance m w activation waiting).Records m m.pc := by
  have hspares := Machine.serves_executeNext m
  unfold Action.Ends at hspares
  unfold advance
  dsimp only
  split <;> rename_i heq <;> rw [heq] at hspares
  · exact .inl hspares.1.fault
  · exact .inl hspares.1.fault
  · exact records_fail hspares.1.fault _

/-- Everything that a step can do to the fault. -/
theorem records_step (sys : NativeSystem ν κ σ) (e : Execution ν κ σ) :
    (e.step sys).Records e.machine (e.position sys) := by
  match e with
  | ⟨m, w, activation, .running, waiting⟩ =>
    simp only [step]
    split
    · exact records_advance
    · exact .inl fault_close
  | ⟨m, w, activation, .entering native origin, waiting⟩ => exact records_follow origin _
  | ⟨m, w, activation, .leaving result, s :: waiting⟩ => exact records_follow s.origin _
  | ⟨m, w, activation, .leaving result, []⟩ => exact .inl rfl

/-- A fault stays as it is from the step that records it on. -/
theorem fault_passes (h : e.Passes sys e') {f : Fault} (hf : e.machine.fault = some f) :
    e'.machine.fault = some f := by
  induction h with
  | refl => exact hf
  | @step e' _ ih =>
    rcases records_step sys e' with hsame | ⟨error, _, hrecorded⟩
    · exact hsame.trans ih
    · rw [hrecorded, ih]
      rfl

/-- A machine that is ready after a step was ready before it. -/
theorem isReady_of_step (h : (e.step sys).machine.isReady = true) : e.machine.isReady = true := by
  cases hfault : e.machine.fault with
  | none => exact Option.isNone_iff_eq_none.mpr hfault
  | some f =>
    have hstays := fault_passes (Passes.step .refl : e.Passes sys _) hfault
    unfold Machine.isReady at h
    rw [hstays] at h
    cases h

/-- A step that records the fault fails at its position. -/
theorem exists_error_of_fault {f : Fault} (hready : e.machine.isReady = true)
    (hf : (e.step sys).machine.fault = some f) :
    f.pc = e.position sys ∧ (e.step sys).phase = .leaving (.error f.error) := by
  have hnone : e.machine.fault = none := Option.isNone_iff_eq_none.mp hready
  rcases records_step sys e with hsame | ⟨error, hphase, hrecorded⟩
  · rw [hsame, hnone] at hf
    cases hf
  · rw [hrecorded, hnone] at hf
    cases hf
    exact ⟨rfl, hphase⟩

end Execution

end Swarm
