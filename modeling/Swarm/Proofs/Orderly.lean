import Swarm.Bridge.Native
import Swarm.Proofs.Respects

/-!
# Orderly steps

A step of an execution depends on the machine. It is orderly if it does the same
whatever lies below the floor of the stack, and affects calls and stack as an
instruction does. All steps are orderly whose instruction does not overreach,
native functions included, since these never look at the stack.
-/

namespace Swarm

/-- Native functions reply the same whatever lies on the stack. -/
structure NativeSystem.Blind {ν κ σ : Type} (sys : NativeSystem ν κ σ) : Prop where
  enter : ∀ native m w lower, sys.enter native (m.withBelow lower) w = sys.enter native m w
  resume : ∀ rest result m w lower,
    sys.resume rest result (m.withBelow lower) w = sys.resume rest result m w

/-- The native functions of a loaded script do not look at the stack. -/
theorem Native.blind_system {σ : Type} (hooks : HookTable σ) : (system hooks).Blind where
  enter native m w lower := by
    cases native with
    | builtin b => cases b <;> rfl
    | print => rfl
    | hook slot owner => rfl
  resume _ _ _ _ _ := rfl

namespace Execution

variable {ν κ σ α : Type} {sys : NativeSystem ν κ σ} {m : Machine ν} {w : World σ}
  {activation : Activation} {waiting : List (Suspended κ)}

/-- The instruction that the next step carries out. -/
def instruction? (e : Execution ν κ σ) : Option Instruction :=
  match e.phase with
  | .running =>
    if e.activation.stop < e.machine.frames.size then
      (e.machine.program.code.decodeAt e.machine.pc).toOption
    else none
  | _ => none

/-- The next step carries out an instruction that overreaches. -/
def Overreaches (e : Execution ν κ σ) : Prop :=
  ∃ i, e.instruction? = some i ∧ e.machine.Overreaches i

instance (e : Execution ν κ σ) : Decidable e.Overreaches :=
  match h : e.instruction? with
  | some i => decidable_of_iff (e.machine.Overreaches i) (by simp [Overreaches, h])
  | none => isFalse (by simp [Overreaches, h])

/-- The execution with other values at the bottom of the stack. -/
def withBelow (lower : Array Value) (e : Execution ν κ σ) : Execution ν κ σ :=
  { e with machine := e.machine.withBelow lower }

/-- What is done with a machine is the same whatever lies below the floor, and affects calls and
stack in order. -/
structure Orderly (m : Machine ν) (f : Machine ν → Execution ν κ σ) : Prop where
  blind : ∀ lower : Array Value, lower.size ≤ m.stackFloor →
    f (m.withBelow lower) = (f m).withBelow lower
  affects : m.Affects ((f m).phase = .running) (f m).machine

/-- A fault is recorded the same whatever lies at the bottom of the stack. -/
theorem recordFault_withBelow (lower : Array Value) (m : Machine ν) (pc : Nat)
    (error : RuntimeError) :
    (m.withBelow lower).recordFault pc error = (m.recordFault pc error).withBelow lower := by
  have hfault : (m.withBelow lower).fault = m.fault := rfl
  unfold Machine.recordFault
  rw [hfault]
  cases m.fault <;> rfl

/-- A failure is the same whatever lies at the bottom of the stack. -/
theorem fail_withBelow (lower : Array Value) (m : Machine ν) (w : World σ)
    (activation : Activation) (waiting : List (Suspended κ)) (pc : Nat) (error : RuntimeError) :
    fail (m.withBelow lower) w activation waiting pc error =
      (fail m w activation waiting pc error).withBelow lower := by
  unfold fail
  rw [recordFault_withBelow]
  rfl

/-- A failure comes after whatever else has happened. -/
theorem affects_fail {m' : Machine ν} (h : m.Affects False m') (pc : Nat) (error : RuntimeError) :
    m.Affects ((fail m' w activation waiting pc error : Execution ν κ σ).phase = .running)
      (fail m' w activation waiting pc error : Execution ν κ σ).machine := by
  have hnot : (fail m' w activation waiting pc error : Execution ν κ σ).phase ≠ .running :=
    (nomatch ·)
  have hcalls : (m'.recordFault pc error).calls = m'.calls := by
    unfold Machine.recordFault
    split <;> rfl
  have hstack : (m'.recordFault pc error).stack = m'.stack := by
    unfold Machine.recordFault
    split <;> rfl
  have hshares {k : Nat} (hm' : m.Shares k m') : m.Shares k (m'.recordFault pc error) :=
    hm'.trans (Machine.shares_of_eq hstack)
  change m.Affects _ (m'.recordFault pc error)
  cases h with
  | work hcalls' hshares' hsize =>
    exact .work (hcalls.trans hcalls') (hshares hshares') (hstack ▸ hsize)
  | enter f hcalls' hbase hshares' hsize =>
    exact .enter f (hcalls.trans hcalls') hbase (hshares hshares') (hstack ▸ hsize)
  | ret f hcalls' hshares' hsize _ =>
    refine .leave f (hcalls ▸ hcalls') (hshares hshares') ?_ fun h => absurd h hnot
    rw [hstack]
    omega
  | leave f hcalls' hshares' hsize _ =>
    exact .leave f (hcalls ▸ hcalls') (hshares hshares') (hstack ▸ hsize) fun h => absurd h hnot

/-- An action that respects the callers, and what follows from its end. -/
theorem orderly_after {act : Action ν α} {n : Nat} {f : Machine ν → Execution ν κ σ}
    (after : EStateM.Result RuntimeError (Machine ν) α → Execution ν κ σ) (h : m.Respects act n)
    (hf : ∀ stack, f { m with stack } = after (act { m with stack }))
    (hblind : ∀ lower result,
      after (Action.mapEnd (Machine.withBelow lower) result) = (after result).withBelow lower)
    (hok : ∀ a m', (after (.ok a m')).machine = m')
    (herror : ∀ e m', m.Affects False m' →
      m.Affects ((after (.error e m')).phase = .running) (after (.error e m')).machine) :
    Orderly m f where
  blind lower hlower := by
    have hbelow : f (m.withBelow lower) = after (act (m.withBelow lower)) := hf _
    have hm : f m = after (act m) := hf m.stack
    rw [hbelow, hm, h.blind lower hlower, hblind]
  affects := by
    have hm : f m = after (act m) := hf m.stack
    have haffects := h.affects
    unfold Action.Ends at haffects
    rw [hm]
    cases hact : act m with
    | ok a m' =>
      rw [hact] at haffects
      rw [hok]
      exact haffects.imp fun _ => trivial
    | error e m' =>
      rw [hact] at haffects
      exact herror e m' haffects

/-- The phase after an action that may call a native function. -/
def entry (origin : Option Nat) : Option ν → Phase ν
  | none => .running
  | some native => .entering native origin

/-- The execution after an action: it goes on unless the action failed. -/
def outcome (w : World σ) (activation : Activation) (waiting : List (Suspended κ))
    (origin : Option Nat) (phase : α → Phase ν) :
    EStateM.Result RuntimeError (Machine ν) α → Execution ν κ σ
  | .ok a m => ⟨m, w, activation, phase a, waiting⟩
  | .error error m => fail m w activation waiting (origin.getD m.pc) error

/-- An action that respects the callers, after which the execution goes on. -/
theorem orderly_outcome {act : Action ν α} {n : Nat} {f : Machine ν → Execution ν κ σ}
    {origin : Option Nat} {phase : α → Phase ν} (h : m.Respects act n)
    (hf : ∀ stack, f { m with stack } =
      outcome w activation waiting origin phase (act { m with stack })) : Orderly m f := by
  refine orderly_after _ h hf (fun lower result => ?_) (fun a m' => rfl)
    fun e m' hm' => affects_fail hm' _ e
  cases result with
  | ok a m' => rfl
  | error e m' => exact fail_withBelow lower m' w activation waiting _ e

/-- The execution after the result of an activation was taken from the stack. -/
def closing (w : World σ) (activation : Activation) (waiting : List (Suspended κ)) :
    EStateM.Result RuntimeError (Machine ν) Value → Execution ν κ σ
  | .ok value m => ⟨m, w, activation, .leaving (.ok value), waiting⟩
  | .error error m => ⟨m, w, activation, .leaving (.error error), waiting⟩

/-- Nothing happens but a failure. -/
theorem orderly_fail (hfloor : m.stackFloor ≤ m.stack.size) (pc : Nat) (error : RuntimeError) :
    Orderly m fun m => (fail m w activation waiting pc error : Execution ν κ σ) where
  blind lower _ := fail_withBelow lower m w activation waiting pc error
  affects := affects_fail (Machine.affects_refl hfloor) pc error

/-- Nothing is done to the machine. -/
theorem orderly_idle (hfloor : m.stackFloor ≤ m.stack.size) (phase : Phase ν) :
    Orderly m fun m => (⟨m, w, activation, phase, waiting⟩ : Execution ν κ σ) where
  blind _ _ := rfl
  affects := Machine.affects_refl hfloor

/-- What is decided without looking at the stack may as well be decided beforehand. -/
theorem Orderly.congr {f g : Machine ν → Execution ν κ σ} (h : Orderly m f)
    (hg : ∀ stack, g { m with stack } = f { m with stack }) : Orderly m g := by
  have hm : g m = f m := hg m.stack
  constructor
  · intro lower hlower
    have hbelow : g (m.withBelow lower) = f (m.withBelow lower) := hg _
    rw [hbelow, hm]
    exact h.blind lower hlower
  · rw [hm]
    exact h.affects

/-- Beginning a call. -/
theorem orderly_startCall (hfloor : m.stackFloor ≤ m.stack.size) (callee : Value)
    (arguments : List Value) :
    Orderly m fun m => (startCall m w waiting callee arguments : Execution ν κ σ) := by
  by_cases hready : m.isReady = true
  · have hcall (stack : Array Value) : startCall { m with stack } w waiting callee arguments =
        outcome w ⟨m.frames.size, .call⟩ waiting none (entry none)
          (Machine.pushCall callee arguments { m with stack }) := by
      refine (if_pos hready).trans ?_
      cases Machine.pushCall callee arguments { m with stack } with
      | ok a m' => cases a <;> rfl
      | error e m' => rfl
    exact orderly_outcome (Machine.respects_pushCall hfloor callee arguments) hcall
  · have hidle : Orderly m fun m' =>
        (⟨m', w, ⟨m.frames.size, .call⟩, .leaving (.error .halted), waiting⟩ : Execution ν κ σ) :=
      orderly_idle hfloor _
    apply hidle.congr
    intro stack
    exact if_neg hready

/-- Entering the body of the script. -/
theorem orderly_enterScript (hfloor : m.stackFloor ≤ m.stack.size) :
    Orderly m fun m => (⟨m.enterScript, w, activation, .running, waiting⟩ : Execution ν κ σ) := by
  constructor
  · intro lower hlower
    have henter : (m.withBelow lower).enterScript = m.enterScript.withBelow lower := by
      unfold Machine.enterScript
      rw [Machine.size_withBelow (by omega)]
      rfl
    rw [henter]
    rfl
  · have hshares : m.Shares m.stackFloor m.enterScript := Machine.shares_of_eq rfl
    exact .enter (Frame.outline _) Array.map_push hfloor hshares (Nat.le_refl _)

/-- Beginning the body of the script. -/
theorem orderly_startScript (hfloor : m.stackFloor ≤ m.stack.size) :
    Orderly m fun m => (startScript m w waiting : Execution ν κ σ) := by
  by_cases hready : m.isReady = true
  · have henter : Orderly m fun m =>
        (⟨m.enterScript, w, ⟨0, .script⟩, .running, waiting⟩ : Execution ν κ σ) :=
      orderly_enterScript hfloor
    apply henter.congr
    intro stack
    exact if_pos hready
  · have hidle : Orderly m fun m' =>
        (⟨m', w, ⟨0, .script⟩, .leaving (.error .halted), waiting⟩ : Execution ν κ σ) :=
      orderly_idle hfloor _
    apply hidle.congr
    intro stack
    exact if_neg hready

/-- Following a native function. -/
theorem orderly_follow (hfloor : m.stackFloor ≤ m.stack.size) (origin : Option Nat)
    (move : Move κ) :
    Orderly m fun m => (follow m w activation waiting origin move : Execution ν κ σ) := by
  cases move with
  | finish result =>
    cases result with
    | ok value =>
      have hret (stack : Array Value) :
          follow { m with stack } w activation waiting origin (.finish (.ok value)) =
            outcome w activation waiting origin (fun _ => .running)
              (Machine.ret value { m with stack }) := by
        simp only [follow]
        cases Machine.ret value { m with stack } <;> rfl
      exact orderly_outcome (Machine.respects_ret hfloor value) hret
    | error error =>
      have hfail : Orderly m fun m' =>
          (fail m' w activation waiting (origin.getD m.pc) error : Execution ν κ σ) :=
        orderly_fail hfloor _ error
      exact ⟨hfail.blind, hfail.affects⟩
  | call callee arguments rest => exact orderly_startCall hfloor callee arguments
  | runScript rest => exact orderly_startScript hfloor

/-- Ending an activation. -/
theorem orderly_close (hfloor : m.stackFloor ≤ m.stack.size) :
    Orderly m fun m => (close m w activation waiting : Execution ν κ σ) := by
  obtain ⟨stop, purpose⟩ := activation
  cases purpose with
  | script => exact orderly_idle hfloor _
  | call =>
    refine orderly_after (closing w ⟨stop, .call⟩ waiting) (Machine.respects_pop hfloor)
      (fun stack => ?_) (fun lower result => ?_) (fun a m' => rfl) fun e m' h => ?_
    · unfold close
      cases Machine.pop { m with stack } <;> rfl
    · cases result <;> rfl
    · exact h.imp (nomatch ·)

/-- Carrying out an instruction that does not overreach, or failing to decode one. -/
theorem orderly_advance (hfloor : m.stackFloor ≤ m.stack.size)
    (h : ∀ i, m.program.code.decodeAt m.pc = .ok i → ¬m.Overreaches i) :
    Orderly m fun m => (advance m w activation waiting : Execution ν κ σ) := by
  have hrespects : ∃ n, m.Respects Machine.executeNext n := by
    cases hdecode : m.program.code.decodeAt m.pc with
    | ok i => exact ⟨_, Machine.respects_executeNext hfloor hdecode (h i hdecode)⟩
    | error e => exact ⟨_, Machine.respects_executeNext_of_error hfloor hdecode⟩
  obtain ⟨n, hrespects⟩ := hrespects
  have hadvance (stack : Array Value) : advance { m with stack } w activation waiting =
      outcome w activation waiting (some m.pc) (entry (some m.pc))
        (Machine.executeNext { m with stack }) := by
    unfold advance
    cases Machine.executeNext { m with stack } with
    | ok a m' => cases a <;> rfl
    | error e m' => rfl
  exact orderly_outcome hrespects hadvance

/-- A reply of a native function changes the store before it is followed. -/
theorem orderly_reply (hfloor : m.stackFloor ≤ m.stack.size) (origin : Option Nat)
    {reply : Machine ν → Reply ν κ σ} (hreply : ∀ lower, reply (m.withBelow lower) = reply m) :
    Orderly m fun m => (follow { m with store := (reply m).store } (reply m).world activation
      waiting origin (reply m).move : Execution ν κ σ) := by
  have hfloor' : ({ m with store := (reply m).store } : Machine ν).stackFloor ≤
      ({ m with store := (reply m).store } : Machine ν).stack.size := hfloor
  have hfollow : Orderly { m with store := (reply m).store } fun m' =>
      (follow m' (reply m).world activation waiting origin (reply m).move : Execution ν κ σ) :=
    orderly_follow hfloor' origin (reply m).move
  have hworks : m.Works { m with store := (reply m).store } :=
    ⟨rfl, Machine.shares_of_eq rfl, rfl⟩
  constructor
  · intro lower hlower
    rw [hreply]
    exact hfollow.blind lower hlower
  · exact hfollow.affects.after hworks

/-- A step is orderly unless it carries out an instruction that overreaches. -/
theorem orderly_step (hsys : sys.Blind) (e : Execution ν κ σ)
    (hfloor : e.machine.stackFloor ≤ e.machine.stack.size) (h : ¬e.Overreaches) :
    Orderly e.machine fun m => ({ e with machine := m } : Execution ν κ σ).step sys := by
  match e with
  | ⟨m, w, activation, .running, waiting⟩ =>
    by_cases hstop : activation.stop < m.frames.size
    · have hadvance : Orderly m fun m => (advance m w activation waiting : Execution ν κ σ) := by
        apply orderly_advance hfloor
        intro i hi hover
        apply h
        refine ⟨i, ?_, hover⟩
        simp only [instruction?, if_pos hstop, hi]
        rfl
      apply hadvance.congr
      intro stack
      exact if_pos hstop
    · have hclose : Orderly m fun m => (close m w activation waiting : Execution ν κ σ) :=
        orderly_close hfloor
      apply hclose.congr
      intro stack
      exact if_neg hstop
  | ⟨m, w, activation, .entering native origin, waiting⟩ =>
    have hreply (lower : Array Value) :
        sys.enter native (m.withBelow lower) w = sys.enter native m w := hsys.enter native m w lower
    exact orderly_reply hfloor origin hreply
  | ⟨m, w, _, .leaving result, ⟨activation, origin, rest⟩ :: waiting⟩ =>
    have hreply (lower : Array Value) :
        sys.resume rest result (m.withBelow lower) w = sys.resume rest result m w :=
      hsys.resume rest result m w lower
    exact orderly_reply hfloor origin hreply
  | ⟨m, w, activation, .leaving result, []⟩ => exact orderly_idle hfloor _

/-- A step that does not overreach affects calls and stack in order. -/
theorem affects_step (hsys : sys.Blind) {e : Execution ν κ σ}
    (hfloor : e.machine.stackFloor ≤ e.machine.stack.size) (h : ¬e.Overreaches) :
    e.machine.Affects ((e.step sys).phase = .running) (e.step sys).machine :=
  (orderly_step hsys e hfloor h).affects

end Execution

end Swarm
