import Swarm.Machine.Entry
import Swarm.Bridge.Native
import Swarm.Proofs.Action
import Swarm.Proofs.SoundExecution

/-!
# How entries end

An entry into a machine at rest ends in one of two ways: it succeeds and the
machine is at rest again, or it fails and a fault has been recorded. The only
failure that records none is that of taking the result of a call from the stack;
it concerns the outermost activation alone, and there a call leaves its result.
-/

namespace Swarm

/-- No call is in progress and no fault has been recorded. -/
def Machine.AtRest {ν : Type} (m : Machine ν) : Prop := m.isReady = true ∧ m.frames.size = 0

/-- The entry has left the machine at rest if it has succeeded, and with a fault if it has
failed. -/
def Ending.Settles {ν σ α : Type} (e : Ending ν σ α) : Prop :=
  match e.result with
  | .ok _ => e.machine.AtRest
  | .error _ => e.machine.isReady = false

/-- The body of the script is not among the calls in progress. -/
def Machine.NoBody {ν : Type} (m : Machine ν) : Prop := ∀ f ∈ m.frames, f.kind ≠ .script

/-- A function is being called, or the call is over and has left its result. -/
structure Machine.Calling {ν : Type} (m : Machine ν) : Prop where
  noBody : m.NoBody
  result : m.frames.size = 0 → 0 < m.stack.size

/-- The instruction neither makes nor changes nor leaves a frame. -/
def Instruction.IsLocal : Instruction → Prop
  | .done | .localStore _ | .call _ | .ret0 | .ret1 => False
  | _ => True

namespace Action

variable {ν α β : Type} {act : Action ν α} {next : α → Action ν β}

/-- The action leaves the calls in progress as they are and records no fault. -/
def KeepsCalls (act : Action ν α) : Prop :=
  ∀ m, Ends act m (fun _ m' => m'.frames = m.frames ∧ m'.fault = m.fault) fun _ _ => True

/-- In addition, the action calls no native function. -/
def CallsNothing (act : Action ν (Option ν)) : Prop :=
  ∀ m, Ends act m
    (fun called m' => called = none ∧ m'.frames = m.frames ∧ m'.fault = m.fault) fun _ _ => True

/-- The action records no fault, and ends the last of the calls in progress with a result. -/
def GoesOn (act : Action ν α) : Prop :=
  ∀ m, Ends act m
    (fun _ m' => m'.fault = m.fault ∧ (m.NoBody → 0 < m.frames.size → m'.Calling)) fun _ _ => True

/-- An action that calls nothing and keeps the calls in progress ends none of them. -/
theorem CallsNothing.goesOn {act : Action ν (Option ν)} (h : CallsNothing act) : GoesOn act := by
  intro m
  refine (h m).imp (fun _ m' ⟨_, hframes, hfault⟩ => ⟨hfault, fun hbody hsize => ?_⟩) fun _ _ h => h
  constructor
  · unfold Machine.NoBody
    rwa [hframes]
  · intro hzero
    rw [hframes] at hzero
    omega

/-- Two actions that keep the calls in progress keep them one after the other. -/
theorem KeepsCalls.bind (h : KeepsCalls act) (hnext : ∀ a, KeepsCalls (next a)) :
    KeepsCalls (act >>= next) := by
  intro m
  refine (h m).bind fun a m' ⟨hframes, hfault⟩ => ?_
  exact (hnext a m').imp (fun _ _ h => ⟨h.1.trans hframes, h.2.trans hfault⟩) fun _ _ h => h

/-- An action that keeps the calls in progress may come before one that calls nothing. -/
theorem KeepsCalls.callsNothing {next : α → Action ν (Option ν)} (h : KeepsCalls act)
    (hnext : ∀ a, CallsNothing (next a)) : CallsNothing (act >>= next) := by
  intro m
  refine (h m).bind fun a m' ⟨hframes, hfault⟩ => (hnext a m').imp ?_ fun _ _ h => h
  exact fun _ _ h => ⟨h.1, h.2.1.trans hframes, h.2.2.trans hfault⟩

/-- Doing nothing calls no native function. -/
theorem callsNothing_none : CallsNothing (pure none : Action ν (Option ν)) :=
  fun _ => ends_pure ⟨rfl, rfl, rfl⟩

/-- An action that keeps the calls in progress may come before one that ends the last of them. -/
theorem KeepsCalls.bind_goesOn (h : KeepsCalls act) (hnext : ∀ a, GoesOn (next a)) :
    GoesOn (act >>= next) := by
  intro m
  refine (h m).bind fun a m' ⟨hframes, hfault⟩ => ?_
  refine (hnext a m').imp (fun _ _ ⟨hfault', hcalling⟩ => ?_) fun _ _ h => h
  refine ⟨hfault'.trans hfault, fun hbody hsize => hcalling ?_ (hframes ▸ hsize)⟩
  unfold Machine.NoBody
  rwa [hframes]

/-- What an action that goes on returns does not matter. -/
theorem GoesOn.bind_pure (h : GoesOn act) (b : β) : GoesOn (act >>= fun _ => pure b) := by
  intro m
  exact (h m).bind fun _ _ hm' => ends_pure hm'

/-- Looking at the machine keeps the calls in progress. -/
theorem keepsCalls_get : KeepsCalls (get : Action ν (Machine ν)) := fun _ => ⟨rfl, rfl⟩

/-- A change that touches neither frames nor the fault keeps the calls in progress. -/
theorem keepsCalls_modifyGet {f : Machine ν → α × Machine ν}
    (hf : ∀ m, (f m).2.frames = m.frames ∧ (f m).2.fault = m.fault) :
    KeepsCalls (modifyGet f : Action ν α) := hf

/-- A change without a result keeps the calls in progress as well. -/
theorem keepsCalls_modify {f : Machine ν → Machine ν}
    (hf : ∀ m, (f m).frames = m.frames ∧ (f m).fault = m.fault) :
    KeepsCalls (modify f : Action ν PUnit) := hf

end Action

namespace Machine

open Swarm.Action

variable {ν : Type} {m : Machine ν}

/-- Pushing a value keeps the calls in progress. -/
theorem keepsCalls_push (v : Value) : KeepsCalls (push v : Action ν Unit) :=
  fun _ => ends_push (fun _ => ⟨rfl, rfl⟩) fun _ => trivial

/-- Popping a value keeps the calls in progress. -/
theorem keepsCalls_pop : KeepsCalls (pop : Action ν Value) :=
  fun _ => ends_pop (fun _ _ _ _ => ⟨rfl, rfl⟩) fun _ => trivial

/-- Looking at the topmost value keeps the calls in progress. -/
theorem keepsCalls_top : KeepsCalls (top : Action ν Value) :=
  fun _ => ends_top (fun _ _ _ => ⟨rfl, rfl⟩) fun _ => trivial

/-- Requiring a result keeps the calls in progress. -/
theorem keepsCalls_require {α : Type} (result : Except RuntimeError α) :
    KeepsCalls (require result : Action ν α) := by
  intro m
  cases result with
  | ok a => exact ⟨rfl, rfl⟩
  | error e => trivial

/-- A jump keeps the calls in progress. -/
theorem keepsCalls_jump (address : UInt32) : KeepsCalls (jump address : Action ν Unit) :=
  keepsCalls_modify fun _ => ⟨rfl, rfl⟩

/-- Pushing a value and going on to the next instruction. -/
theorem callsNothing_push_next (v : Value) :
    CallsNothing (do push v; return none : Action ν (Option ν)) :=
  (keepsCalls_push v).callsNothing fun _ => callsNothing_none

/-- A call makes a frame, which is not that of the body. -/
theorem ends_call_frames (n : Nat) (m : Machine ν) :
    Ends (call n) m (fun _ m' => m'.fault = m.fault ∧ 0 < m'.frames.size ∧ (m.NoBody → m'.NoBody))
      fun _ _ => True := by
  have henter (kind : FrameKind) (base : Nat) (hkind : kind ≠ .script) :
      0 < (m.enterFrame kind base).frames.size ∧
        (m.NoBody → (m.enterFrame kind base).NoBody) := by
    refine ⟨by simp [enterFrame], fun hbody f hf => ?_⟩
    rcases Array.mem_push.mp hf with hf | rfl
    · exact hbody f hf
    · exact hkind
  refine ends_call ?_ ?_ ?_ ?_ ?_ ?_
  · exact fun base _ _ _ _ => ⟨rfl, henter .function base (nomatch ·)⟩
  · exact fun base _ _ _ _ _ _ => ⟨rfl, henter .native base (nomatch ·)⟩
  all_goals intros; trivial

/-- A call leaves a call in progress. -/
theorem goesOn_call (n : Nat) : GoesOn (call n : Action ν (Option ν)) := by
  intro m
  refine (ends_call_frames n m).imp (fun _ m' ⟨hfault, hsize, hbody⟩ => ?_) fun _ _ h => h
  exact ⟨hfault, fun hm _ => ⟨hbody hm, fun hzero => by omega⟩⟩

/-- Returning leaves a result. -/
theorem ends_ret_frames (v : Value) (m : Machine ν) :
    Ends (ret v) m (fun _ m' => m'.fault = m.fault ∧ (m.NoBody → m'.Calling)) fun _ _ => True := by
  refine ends_ret (fun frames f hframes => ?_) fun _ => trivial
  refine ends_push (fun _ => ⟨rfl, fun hbody => ⟨?_, fun _ => ?_⟩⟩) fun _ => trivial
  · intro g hg
    apply hbody g
    rw [hframes]
    exact Array.mem_push_of_mem f hg
  · simp

/-- A return ends a call and leaves its result. -/
theorem goesOn_ret (v : Value) : GoesOn (ret v : Action ν Unit) := by
  intro m
  exact (ends_ret_frames v m).imp (fun _ _ h => ⟨h.1, fun hbody _ => h.2 hbody⟩) fun _ _ h => h

/-- Without a frame of the body the script cannot end. -/
theorem goesOn_done : GoesOn (done : Action ν Unit) := by
  intro m
  refine ends_done (fun frames f hframes hkind => ⟨rfl, fun hbody _ => ?_⟩)
    (fun _ _ _ _ => trivial) fun _ => trivial
  exact absurd hkind (hbody f (hframes ▸ Array.mem_push_self))

/-- Setting a local symbol changes a frame, but not what it is the frame of. -/
theorem goesOn_storeLocal (index : Nat) (v : Value) :
    GoesOn (storeLocal index v : Action ν Unit) := by
  intro m
  refine ends_storeLocal (fun frames f hframes => ⟨rfl, fun hbody _ => ⟨?_, ?_⟩⟩) fun _ => trivial
  · intro g hg
    rcases Array.mem_push.mp hg with hg | rfl
    · exact hbody g (hframes ▸ Array.mem_push_of_mem f hg)
    · exact hbody f (hframes ▸ Array.mem_push_self)
  · intro hzero
    simp at hzero

/-- A local instruction calls nothing and keeps the calls in progress. -/
theorem callsNothing_execute {i : Instruction} (h : i.IsLocal) :
    CallsNothing (execute i : Action ν (Option ν)) := by
  cases i with
  | done | localStore | call | ret0 | ret1 => exact h.elim
  | nop => exact callsNothing_none
  | pushNil | pushInt _ | pushFloat _ | pushClosure _ => exact callsNothing_push_next _
  | pushString string => exact keepsCalls_get.callsNothing fun m => callsNothing_push_next _
  | pushTable =>
    refine KeepsCalls.callsNothing ?_ fun id => callsNothing_push_next _
    exact keepsCalls_modifyGet fun _ => ⟨rfl, rfl⟩
  | dup => exact keepsCalls_top.callsNothing fun v => callsNothing_push_next v
  | pop => exact keepsCalls_pop.callsNothing fun _ => callsNothing_none
  | tablePut =>
    refine keepsCalls_pop.callsNothing fun value => keepsCalls_pop.callsNothing fun keyValue =>
      keepsCalls_pop.callsNothing fun tableValue => (keepsCalls_require _).callsNothing fun id =>
      (keepsCalls_require _).callsNothing fun key =>
      KeepsCalls.callsNothing (keepsCalls_modify ?_) fun _ => callsNothing_none
    exact fun _ => ⟨rfl, rfl⟩
  | tableGet =>
    refine keepsCalls_pop.callsNothing fun keyValue => keepsCalls_pop.callsNothing fun tableValue =>
      (keepsCalls_require _).callsNothing fun id =>
        (keepsCalls_require _).callsNothing fun key => ?_
    exact keepsCalls_get.callsNothing fun m => callsNothing_push_next _
  | globalLoad name => exact keepsCalls_get.callsNothing fun m => callsNothing_push_next _
  | globalStore name =>
    refine keepsCalls_pop.callsNothing fun value =>
      KeepsCalls.callsNothing (keepsCalls_modify ?_) fun _ => callsNothing_none
    exact fun _ => ⟨rfl, rfl⟩
  | localLoad index =>
    exact keepsCalls_get.callsNothing fun m => (keepsCalls_require _).callsNothing
      fun v => callsNothing_push_next v
  | jump address => exact (keepsCalls_jump address).callsNothing fun _ => callsNothing_none
  | jumpIfZero address | jumpIfNotZero address =>
    refine keepsCalls_pop.callsNothing fun v => ?_
    split
    · exact (keepsCalls_jump address).callsNothing fun _ => callsNothing_none
    · exact callsNothing_none
  | binary op =>
    refine keepsCalls_pop.callsNothing fun right => keepsCalls_pop.callsNothing fun left => ?_
    exact (keepsCalls_require _).callsNothing fun v => callsNothing_push_next v
  | neg =>
    exact keepsCalls_pop.callsNothing fun v => (keepsCalls_require _).callsNothing
      fun v => callsNothing_push_next v
  | not => exact keepsCalls_pop.callsNothing fun v => callsNothing_push_next _

/-- Every instruction goes on. -/
theorem goesOn_execute (i : Instruction) : GoesOn (execute i : Action ν (Option ν)) := by
  cases i with
  | done => exact goesOn_done.bind_pure none
  | localStore index =>
    exact keepsCalls_pop.bind_goesOn fun v => (goesOn_storeLocal _ v).bind_pure none
  | call argumentCount => exact goesOn_call _
  | ret0 => exact (goesOn_ret .nil).bind_pure none
  | ret1 => exact keepsCalls_pop.bind_goesOn fun v => (goesOn_ret v).bind_pure none
  | _ => exact (callsNothing_execute (by exact trivial)).goesOn

/-- Carrying out the next instruction goes on. -/
theorem goesOn_executeNext : GoesOn (executeNext : Action ν (Option ν)) := by
  refine keepsCalls_get.bind_goesOn fun m => ?_
  split
  · exact fun _ => trivial
  · rename_i i _
    refine KeepsCalls.bind_goesOn (keepsCalls_modify ?_) fun _ => goesOn_execute i
    exact fun _ => ⟨rfl, rfl⟩

/-- A call that begins has made a frame. -/
theorem ends_pushCall (callee : Value) (arguments : List Value) (m : Machine ν) :
    Ends (pushCall callee arguments) m
      (fun _ m' => m'.fault = m.fault ∧ 0 < m'.frames.size ∧ (m.NoBody → m'.NoBody))
      fun _ _ => True := by
  refine ends_pushCall_of (fun m₁ hpiles _ => ?_) fun _ _ _ _ => trivial
  refine (ends_call_frames _ m₁).imp (fun _ m' ⟨hfault, hsize, hbody⟩ => ?_) fun _ _ h => h
  refine ⟨hfault.trans hpiles.fault, hsize, fun hm => hbody ?_⟩
  unfold NoBody
  rwa [hpiles.frames]

end Machine

/-- Native functions forward failures to their callers and never run the body of the script. -/
structure NativeSystem.Forwards {ν κ σ : Type} (sys : NativeSystem ν κ σ) : Prop where
  enter : ∀ native m w rest, (sys.enter native m w).move ≠ .runScript rest
  resume : ∀ held result m w rest, (sys.resume held result m w).move ≠ .runScript rest
  error : ∀ held e m w, ∃ e', (sys.resume held (.error e) m w).move = .finish (.error e')

namespace Execution

variable {ν κ σ : Type} {sys : NativeSystem ν κ σ} {p : Purpose} {m : Machine ν} {w : World σ}
  {activation : Activation} {waiting : List (Suspended κ)} {e : Execution ν κ σ}

/-- The outermost activation, below all native functions that wait. -/
def outermost (activation : Activation) : List (Suspended κ) → Activation
  | [] => activation
  | s :: waiting => outermost s.activation waiting

/-- How the machine stands in a phase. Until the execution has left its outermost activation with an
error there is no fault. -/
def Phase.Steady (p : Purpose) (m : Machine ν) (waiting : List (Suspended κ)) : Phase ν → Prop
  | .running => m.isReady = true ∧ (p = .call → m.Calling)
  | .entering _ _ => m.isReady = true ∧ (p = .call → m.NoBody)
  | .leaving (.ok _) =>
    m.isReady = true ∧ (p = .call → m.NoBody) ∧ (waiting = [] → m.frames.size = 0)
  | .leaving (.error _) => waiting = [] → m.isReady = false

/-- An execution that was begun for the purpose on a machine at rest. -/
structure Steady (p : Purpose) (e : Execution ν κ σ) : Prop where
  base : outermost e.activation e.waiting = ⟨0, p⟩
  phase : Phase.Steady p e.machine e.waiting e.phase

/-- A machine in which a fault has been recorded is not ready. -/
theorem isReady_recordFault (pc : Nat) (error : RuntimeError) :
    (m.recordFault pc error).isReady = false := by
  unfold Machine.recordFault
  split <;> simp_all [Machine.isReady]

/-- Whether a machine is ready depends on its fault alone. -/
theorem isReady_of_fault_eq {m' : Machine ν} (hfault : m'.fault = m.fault)
    (hready : m.isReady = true) : m'.isReady = true := by
  unfold Machine.isReady at *
  rwa [hfault]

/-- A failure is recorded. -/
theorem steady_fail (houtermost : outermost activation waiting = ⟨0, p⟩) (pc : Nat)
    (error : RuntimeError) : (fail m w activation waiting pc error).Steady p :=
  ⟨houtermost, fun _ => isReady_recordFault pc error⟩

/-- A call is begun without a frame of the body. -/
theorem steady_startCall {callee : Value} {arguments : List Value}
    (houtermost : outermost ⟨m.frames.size, .call⟩ waiting = ⟨0, p⟩) (hready : m.isReady = true)
    (hbody : p = .call → m.NoBody) : (startCall m w waiting callee arguments).Steady p := by
  have hends := Machine.ends_pushCall callee arguments m
  unfold Action.Ends at hends
  unfold startCall
  rw [if_pos hready]
  split <;> rename_i heq <;> rw [heq] at hends
  · obtain ⟨hfault, hsize, hkept⟩ := hends
    refine ⟨houtermost, isReady_of_fault_eq hfault hready, fun hcall => ⟨hkept (hbody hcall), ?_⟩⟩
    intro hzero
    exact absurd hzero hsize.ne'
  · obtain ⟨hfault, _, hkept⟩ := hends
    exact ⟨houtermost, isReady_of_fault_eq hfault hready, fun hcall => hkept (hbody hcall)⟩
  · exact steady_fail houtermost _ _

/-- The body of the script is begun. -/
theorem steady_startScript (hready : m.isReady = true) :
    (startScript (κ := κ) m w []).Steady .script := by
  unfold startScript
  rw [if_pos hready]
  exact ⟨rfl, hready, nofun⟩

/-- A native function that does not run the body is followed. -/
theorem steady_follow {origin : Option Nat} {move : Move κ} (hmove : ∀ rest, move ≠ .runScript rest)
    (houtermost : outermost activation waiting = ⟨0, p⟩) (hready : m.isReady = true)
    (hbody : p = .call → m.NoBody) : (follow m w activation waiting origin move).Steady p := by
  match move with
  | .finish (.ok v) =>
    have hends := Machine.ends_ret_frames v m
    unfold Action.Ends at hends
    simp only [follow]
    split <;> rename_i heq <;> rw [heq] at hends
    · exact ⟨houtermost, isReady_of_fault_eq hends.1 hready, fun hcall => hends.2 (hbody hcall)⟩
    · exact steady_fail houtermost _ _
  | .finish (.error error) => exact steady_fail houtermost _ _
  | .call callee arguments rest => exact steady_startCall houtermost hready hbody
  | .runScript rest => exact absurd rfl (hmove rest)

/-- An activation ends. In the outermost one of a call the result is there. -/
theorem steady_close (houtermost : outermost activation waiting = ⟨0, p⟩)
    (hready : m.isReady = true) (hcalling : p = .call → m.Calling)
    (hstop : m.frames.size ≤ activation.stop) : (close m w activation waiting).Steady p := by
  have hzero (hwaiting : waiting = []) : activation = ⟨0, p⟩ ∧ m.frames.size = 0 := by
    subst hwaiting
    have hactivation : activation = ⟨0, p⟩ := houtermost
    rw [hactivation] at hstop
    exact ⟨hactivation, Nat.le_zero.mp hstop⟩
  have hbody (hcall : p = .call) : m.NoBody := (hcalling hcall).noBody
  unfold close
  cases hpurpose : activation.purpose with
  | script => exact ⟨houtermost, hready, hbody, fun hwaiting => (hzero hwaiting).2⟩
  | call =>
    have hpop : Action.Ends Machine.pop m
        (fun _ m' => m'.frames = m.frames ∧ m'.fault = m.fault)
        fun _ _ => m.stack.size ≤ m.stackFloor :=
      Machine.ends_pop (fun _ _ _ _ => ⟨rfl, rfl⟩) id
    unfold Action.Ends at hpop
    dsimp only
    split <;> rename_i heq <;> rw [heq] at hpop
    · obtain ⟨hframes, hfault⟩ := hpop
      refine ⟨houtermost, isReady_of_fault_eq hfault hready, ?_, ?_⟩
      · intro hcall
        unfold Machine.NoBody
        rw [hframes]
        exact hbody hcall
      · intro hwaiting
        rw [hframes]
        exact (hzero hwaiting).2
    · refine ⟨houtermost, fun hwaiting => ?_⟩
      obtain ⟨rfl, hframes⟩ := hzero hwaiting
      have hresult := (hcalling hpurpose).result hframes
      have hempty : m.frames = #[] := Array.eq_empty_of_size_eq_zero hframes
      have hfloor : m.stackFloor = 0 := by
        unfold Machine.stackFloor
        rw [hempty]
        rfl
      omega

/-- An instruction is carried out in some frame. -/
theorem steady_advance (houtermost : outermost activation waiting = ⟨0, p⟩)
    (hready : m.isReady = true) (hcalling : p = .call → m.Calling)
    (hsize : 0 < m.frames.size) : (advance m w activation waiting).Steady p := by
  have hends := Machine.goesOn_executeNext m
  unfold Action.Ends at hends
  unfold advance
  dsimp only
  split <;> rename_i heq <;> rw [heq] at hends
  · exact ⟨houtermost, isReady_of_fault_eq hends.1 hready,
      fun hcall => hends.2 (hcalling hcall).noBody hsize⟩
  · exact ⟨houtermost, isReady_of_fault_eq hends.1 hready,
      fun hcall => (hends.2 (hcalling hcall).noBody hsize).noBody⟩
  · exact steady_fail houtermost _ _

/-- One step of such an execution. -/
theorem Steady.step (hsys : sys.Forwards) (he : e.Steady p) : (e.step sys).Steady p := by
  obtain ⟨houtermost, hphase⟩ := he
  match e with
  | ⟨m, w, activation, .running, waiting⟩ =>
    obtain ⟨hready, hcalling⟩ := hphase
    simp only [Execution.step]
    split
    · exact steady_advance houtermost hready hcalling (by omega)
    · exact steady_close houtermost hready hcalling (by omega)
  | ⟨m, w, activation, .entering native origin, waiting⟩ =>
    obtain ⟨hready, hbody⟩ := hphase
    exact steady_follow (hsys.enter native m w) houtermost hready hbody
  | ⟨m, w, _, .leaving (.ok v), ⟨activation, origin, rest⟩ :: waiting⟩ =>
    obtain ⟨hready, hbody, _⟩ := hphase
    exact steady_follow (hsys.resume rest (.ok v) m w) houtermost hready hbody
  | ⟨m, w, _, .leaving (.error error), ⟨activation, origin, rest⟩ :: waiting⟩ =>
    obtain ⟨error', hmove⟩ := hsys.error rest error m w
    have houtermost' : outermost activation waiting = ⟨0, p⟩ := houtermost
    simp only [Execution.step, hmove]
    exact steady_fail houtermost' _ _
  | ⟨m, w, activation, .leaving result, []⟩ => exact ⟨houtermost, hphase⟩

/-- A run ends with the machine at rest or with a fault. -/
theorem Steady.settles (hsys : sys.Forwards) (he : e.Steady p) {fuel : Nat}
    {ending : Ending ν σ Value} (hrun : e.run sys fuel = some ending) : ending.Settles := by
  obtain ⟨activation, hpasses⟩ := passes_of_run hrun
  have hphase := (hpasses.preserves (fun _ he => he.step hsys) he).phase
  unfold Ending.Settles
  cases hresult : ending.result with
  | ok v =>
    rw [hresult] at hphase
    exact ⟨hphase.1, hphase.2.2 rfl⟩
  | error error =>
    rw [hresult] at hphase
    exact hphase rfl

end Execution

namespace Machine

variable {ν κ σ : Type} {sys : NativeSystem ν κ σ} {fuel : Nat} {m : Machine ν} {w : World σ}

/-- At rest there is no call in progress. -/
theorem AtRest.noBody (hm : m.AtRest) : m.NoBody := by
  intro f hf
  rw [Array.eq_empty_of_size_eq_zero hm.2] at hf
  cases Array.not_mem_empty f hf

/-- A call of a value settles. -/
theorem settles_callValue (hsys : sys.Forwards) (hm : m.AtRest) {callee : Value}
    {arguments : List Value} {ending : Ending ν σ Value}
    (hcall : m.callValue sys fuel callee arguments w = some ending) : ending.Settles := by
  have houtermost : Execution.outermost (⟨m.frames.size, .call⟩ : Activation)
      ([] : List (Suspended κ)) = ⟨0, .call⟩ := by
    rw [hm.2]
    rfl
  exact (Execution.steady_startCall houtermost hm.1 fun _ => hm.noBody).settles hsys hcall

/-- Running the body of the script settles. -/
theorem settles_executeScript (hsys : sys.Forwards) (hm : m.AtRest) {ending : Ending ν σ Unit}
    (hbody : m.executeScript sys fuel w = some ending) : ending.Settles := by
  obtain ⟨inner, hrun, rfl⟩ := Option.map_eq_some_iff.mp hbody
  have hsettles := (Execution.steady_startScript hm.1).settles hsys hrun
  unfold Ending.Settles at *
  unfold Ending.map
  cases hresult : inner.result <;> rw [hresult] at hsettles <;> exact hsettles

/-- A call of a function in a global variable settles, also if it is skipped. -/
theorem settles_callGlobal (hsys : sys.Forwards) (hm : m.AtRest) {name : String}
    {arguments : List Value} {ending : Ending ν σ Value}
    (hcall : m.callGlobal sys fuel name arguments w = some ending) : ending.Settles := by
  unfold callGlobal at hcall
  rw [if_pos hm.1] at hcall
  dsimp only at hcall
  split at hcall
  · cases hcall
    exact hm
  · exact settles_callValue hsys hm hcall

/-- Taking a message concerns the store alone. -/
theorem AtRest.nextDelivery {delivery : Option (Value × List Value)} {m' : Machine ν}
    {w' : World σ} (hm : m.AtRest) (hnext : m.nextDelivery w = (delivery, m', w')) :
    m'.AtRest := by
  cases hnext
  exact hm

end Machine

section Natives

variable {σ : Type}

/-- A visit of rows goes on with a call or ends. -/
theorem Traversal.move_ne_runScript (t rest : Traversal) : t.move ≠ .runScript rest := by
  unfold Traversal.move
  split <;> nofun

/-- No built-in function runs the body of the script. -/
theorem Builtin.enter_ne_runScript {ν : Type} (b : Builtin) (m : Machine ν) (rest : Traversal) :
    (b.enter m).1 ≠ .runScript rest := by
  have hfinish (result : Except RuntimeError (Store ν)) :
      (Builtin.finishWith m result).1 ≠ .runScript rest := by
    cases result <;> nofun
  cases b with
  | send => exact hfinish _
  | listen => exact hfinish _
  | size => nofun
  | foreach =>
    unfold Builtin.enter
    dsimp only
    split
    · exact Traversal.move_ne_runScript _ _
    · nofun

/-- The native functions of loaded scripts forward failures. -/
theorem Native.system_forwards (hooks : HookTable σ) : (Native.system hooks).Forwards where
  enter native m w rest := by
    cases native with
    | builtin b => exact b.enter_ne_runScript m rest
    | print => nofun
    | hook slot owner => nofun
  resume held result m w rest := by
    cases result with
    | ok v => exact held.move_ne_runScript rest
    | error e => nofun
  error held e m w := ⟨e, rfl⟩

end Natives

end Swarm
