import Swarm.Proofs.Entries
import Swarm.Proofs.Respects
import Swarm.Proofs.Spares

/-!
# What work does to frames and stack

Work goes on in the innermost frame, makes a frame for a call, or ends the innermost
frame; the frames below stay as they are. In its frame it takes away nothing below the
stack base. A new frame has nothing on the stack yet, and its base is lower than the
stack may be high, so there is room for its result. A frame that ends with a result
leaves one value above its base, or directly above the stack where the stack has sunk
below the base.
-/

namespace Swarm

/-- Whether the instruction ends a frame with a result. -/
def Instruction.isReturn : Instruction → Bool
  | .ret0 | .ret1 => true
  | _ => false

namespace Machine

variable {ν : Type} {m m' m₁ : Machine ν} {outer : Array Frame} {f : Frame} {k : Nat}

/-- The frames stay as they are, and what lies below the floor stays on the stack. -/
structure StaysIn (m m' : Machine ν) : Prop where
  frames : m'.frames = m.frames
  size : min m.stack.size m.stackFloor ≤ m'.stack.size

/-- Doing nothing stays in the frame. -/
theorem StaysIn.refl : m.StaysIn m := ⟨rfl, Nat.min_le_left _ _⟩

/-- Staying in the frame twice stays in it. -/
theorem StaysIn.trans (h : m.StaysIn m₁) (h' : m₁.StaysIn m') : m.StaysIn m' where
  frames := h'.frames.trans h.frames
  size := by
    have hfloor : m₁.stackFloor = m.stackFloor := by
      unfold stackFloor
      rw [h.frames]
    have hfirst := h.size
    have hsecond := h'.size
    rw [hfloor] at hsecond
    omega

/-- What work makes of a machine whose innermost frame is the given one: it goes on in the frame, it
makes another frame, or it ends the frame, which only the end of the script does without a
result. -/
inductive Alters (m : Machine ν) (outer : Array Frame) (f : Frame) :
    Bool → Option ν → Machine ν → Prop where
  | works {m' : Machine ν} {g : Frame} (hframes : m'.frames = outer.push g)
      (hsame : g.outline = f.outline) (hsize : min m.stack.size f.stackBase ≤ m'.stack.size) :
      Alters m outer f false none m'
  | enters {called : Option ν} {m' : Machine ν} {g : Frame}
      (hframes : m'.frames = (outer.push f).push g) (hkind : g.kind ≠ .script)
      (hbase : g.stackBase = m'.stack.size) (hroom : m.Fits → g.stackBase < m.limits.maxStack)
      (hdepth : m.frames.size < m.limits.maxCallDepth) : Alters m outer f false called m'
  | returns {m' : Machine ν} (hframes : m'.frames = outer) (hpc : m'.pc = f.returnPc)
      (hsize : m'.stack.size = min m.stack.size f.stackBase + 1) : Alters m outer f true none m'
  | ends {m' : Machine ν} (hframes : m'.frames = outer) (hkind : f.kind = .script)
      (hsize : m'.stack.size = min m.stack.size f.stackBase) : Alters m outer f false none m'

/-- Only frames, stack and bounds of the machine matter. -/
theorem Alters.congr {returning : Bool} {called : Option ν}
    (h : m₁.Alters outer f returning called m') (hframes : m₁.frames = m.frames)
    (hstack : m₁.stack = m.stack) (hlimits : m₁.limits = m.limits) :
    m.Alters outer f returning called m' := by
  have hfits (hm : m.Fits) : m₁.Fits := by
    unfold Fits at *
    rwa [hstack, hlimits]
  cases h with
  | works hframes' hsame hsize => exact .works hframes' hsame (hstack ▸ hsize)
  | enters hframes' hkind hbase hroom hdepth =>
    exact .enters hframes' hkind hbase (fun hm => hlimits ▸ hroom (hfits hm))
      (hframes ▸ hlimits ▸ hdepth)
  | returns hframes' hpc hsize => exact .returns hframes' hpc (hstack ▸ hsize)
  | ends hframes' hkind hsize => exact .ends hframes' hkind (hstack ▸ hsize)

/-- A call has made the frame, whose part of the stack begins where the stack has ended. -/
structure Opens (m : Machine ν) (g : Frame) (m' : Machine ν) : Prop where
  frames : m'.frames = m.frames.push g
  kind : g.kind ≠ .script
  returnPc : g.returnPc = m.pc
  base : g.stackBase = m.stack.size
  size : m'.stack.size = m.stack.size
  room : m.stack.size < m.limits.maxStack
  depth : m.frames.size < m.limits.maxCallDepth

/-- Opening a frame is one of the things that work may do to the frames. -/
theorem Opens.alters {g : Frame} (h : m.Opens g m') (hframes : m.frames = outer.push f) :
    m.Alters outer f false none m' :=
  .enters (hframes ▸ h.frames) h.kind (h.base.trans h.size.symm)
    (fun _ => h.base.symm ▸ h.room) h.depth

end Machine

namespace Action

variable {ν α β : Type} {act : Action ν α} {next : α → Action ν β}

/-- The action works in the innermost frame only. -/
def Stays (act : Action ν α) : Prop :=
  ∀ m, Ends act m (fun _ m' => m.StaysIn m') fun _ m' => m.StaysIn m'

/-- Actions that work in the innermost frame only may follow each other. -/
theorem Stays.bind (h : Stays act) (hnext : ∀ a, Stays (next a)) :
    Stays (act >>= next) := by
  intro m
  refine (h m).bind fun a m' hm' => ?_
  exact (hnext a m').imp (fun _ _ h => hm'.trans h) fun _ _ h => hm'.trans h

/-- Doing nothing stays in the innermost frame. -/
theorem stays_pure (a : α) : Stays (pure a : Action ν α) := fun _ => ends_pure .refl

/-- What an action that stays in the frame returns does not matter. -/
theorem Stays.bind_pure (h : Stays act) (b : β) : Stays (act >>= fun _ => pure b) :=
  h.bind fun _ => stays_pure b

/-- Looking at the machine stays in the innermost frame. -/
theorem stays_get : Stays (get : Action ν (Machine ν)) := fun _ => Machine.StaysIn.refl

/-- A change of neither frames nor stack stays in the innermost frame. -/
theorem stays_modifyGet {f : Machine ν → α × Machine ν}
    (hf : ∀ m, (f m).2.frames = m.frames ∧ (f m).2.stack = m.stack) :
    Stays (modifyGet f : Action ν α) := by
  intro m
  obtain ⟨hframes, hstack⟩ := hf m
  refine ⟨hframes, ?_⟩
  rw [hstack]
  exact Nat.min_le_left _ _

/-- So does one without a result. -/
theorem stays_modify {f : Machine ν → Machine ν}
    (hf : ∀ m, (f m).frames = m.frames ∧ (f m).stack = m.stack) :
    Stays (modify f : Action ν PUnit) := stays_modifyGet hf

end Action

namespace Machine

open Swarm.Action

variable {ν : Type} {m m' m₁ : Machine ν} {outer : Array Frame} {f : Frame} {k : Nat}

/-- Pushing a value stays in the innermost frame. -/
theorem stays_push (v : Value) : Stays (push v : Action ν Unit) := by
  intro m
  refine ends_push (fun _ => ⟨rfl, ?_⟩) fun _ => .refl
  rw [Array.size_push]
  omega

/-- Popping a value stays above the floor. -/
theorem stays_pop : Stays (pop : Action ν Value) := by
  intro m
  refine ends_pop (fun rest v hstack hfloor => ⟨rfl, ?_⟩) fun _ => .refl
  exact Nat.le_trans (Nat.min_le_right _ _) hfloor

/-- Looking at the topmost value stays in the innermost frame. -/
theorem stays_top : Stays (top : Action ν Value) :=
  fun _ => ends_top (fun _ _ _ => .refl) fun _ => .refl

/-- Asking for a result stays in the innermost frame. -/
theorem stays_require {α : Type} (result : Except RuntimeError α) :
    Stays (require result : Action ν α) := by
  intro m
  cases result with
  | ok a => exact StaysIn.refl
  | error e => exact StaysIn.refl

/-- A jump stays in the innermost frame. -/
theorem stays_jump (address : UInt32) : Stays (jump address : Action ν Unit) :=
  stays_modify fun _ => ⟨rfl, rfl⟩

/-- Pushing a value and going on stays in the innermost frame. -/
theorem stays_push_next (v : Value) :
    Stays (do push v; return none : Action ν (Option ν)) := (stays_push v).bind_pure none

/-- Instructions that are local stay in the innermost frame. -/
theorem stays_execute {i : Instruction} (h : i.IsLocal) :
    Stays (execute i : Action ν (Option ν)) := by
  cases i with
  | done | localStore | call | ret0 | ret1 => exact h.elim
  | nop => exact stays_pure none
  | pushNil | pushInt _ | pushFloat _ | pushClosure _ => exact stays_push_next _
  | pushString string => exact stays_get.bind fun m => stays_push_next _
  | pushTable =>
    refine Stays.bind (stays_modifyGet ?_) fun id => stays_push_next _
    exact fun _ => ⟨rfl, rfl⟩
  | dup => exact stays_top.bind fun v => stays_push_next v
  | pop => exact stays_pop.bind_pure none
  | tablePut =>
    refine stays_pop.bind fun value => stays_pop.bind fun keyValue =>
      stays_pop.bind fun tableValue => (stays_require _).bind fun id =>
      (stays_require _).bind fun key => Stays.bind_pure (stays_modify ?_) none
    exact fun _ => ⟨rfl, rfl⟩
  | tableGet =>
    exact stays_pop.bind fun keyValue => stays_pop.bind fun tableValue =>
      (stays_require _).bind fun id => (stays_require _).bind fun key =>
      stays_get.bind fun m => stays_push_next _
  | globalLoad name => exact stays_get.bind fun m => stays_push_next _
  | globalStore name =>
    refine stays_pop.bind fun value => Stays.bind_pure (stays_modify ?_) none
    exact fun _ => ⟨rfl, rfl⟩
  | localLoad index =>
    exact stays_get.bind fun m => (stays_require _).bind fun v => stays_push_next v
  | jump address => exact (stays_jump address).bind_pure none
  | jumpIfZero address | jumpIfNotZero address =>
    refine stays_pop.bind fun v => ?_
    split
    · exact (stays_jump address).bind_pure none
    · exact stays_pure none
  | binary op =>
    exact stays_pop.bind fun right => stays_pop.bind fun left =>
      (stays_require _).bind fun v => stays_push_next v
  | neg => exact stays_pop.bind fun v => (stays_require _).bind fun v => stays_push_next v
  | not => exact stays_pop.bind fun v => stays_push_next _

/-- Work in the innermost frame leaves its stack base on the stack. -/
theorem StaysIn.works (h : m.StaysIn m') (hframes : m.frames = outer.push f) :
    m.Alters outer f false none m' := by
  have hsize := h.size
  rw [stackFloor_of_frames hframes] at hsize
  exact .works (h.frames.trans hframes) rfl hsize

/-- A local instruction goes on in the innermost frame. -/
theorem alters_of_isLocal {i : Instruction} (hi : i.IsLocal) (hframes : m.frames = outer.push f) :
    Ends (execute i) m (fun called m' => m.Alters outer f false called m')
      fun _ m' => m'.frames.size ≤ m.frames.size := by
  have hcalled := callsNothing_execute hi m
  have hstays := stays_execute hi m
  unfold Ends at hcalled hstays ⊢
  split <;> rename_i heq <;> rw [heq] at hcalled hstays
  · rw [hcalled.1]
    exact hstays.works hframes
  · exact Nat.le_of_eq (congrArg Array.size hstays.frames)

/-- A frame that ends leaves its result above its base. -/
theorem alters_ret (v : Value) (hframes : m.frames = outer.push f) :
    Ends (ret v) m (fun _ m' => m.Alters outer f true none m')
      fun _ m' => m'.frames.size ≤ m.frames.size := by
  refine ends_ret (fun frames g hpush => ?_) fun _ => Nat.le_refl _
  obtain ⟨rfl, rfl⟩ := Array.push_eq_push.mp (hpush.symm.trans hframes)
  refine ends_push (fun _ => .returns rfl rfl ?_) fun _ => ?_
  · simp only [Array.size_push, Array.size_shrink]
    omega
  · dsimp only
    rw [hframes, Array.size_push]
    exact Nat.le_succ _

/-- A call makes a frame above all others. -/
theorem enters_call (n : Nat) (m : Machine ν) :
    Ends (call n) m
      (fun _ m' => ∃ g : Frame, m'.frames = m.frames.push g ∧ g.kind ≠ .script ∧
        g.returnPc = m.pc ∧ g.stackBase = m'.stack.size ∧ g.stackBase + (n + 1) = m.stack.size ∧
        m.frames.size < m.limits.maxCallDepth)
      fun _ m' => m'.frames = m.frames := by
  have hsize {base : Nat} (h : m.stack.size = base + (n + 1)) (kind : FrameKind) :
      base = (m.enterFrame kind base).stack.size := by
    simp only [enterFrame, Array.size_shrink]
    omega
  have hfunction : FrameKind.function ≠ .script := by decide
  have hnative : FrameKind.native ≠ .script := by decide
  refine ends_call ?_ ?_ (fun _ => rfl) (fun _ => rfl) (fun _ _ _ _ _ => rfl) fun _ => rfl
  · exact fun base _ h hdepth _ => ⟨_, rfl, hfunction, rfl, hsize h .function, h.symm, hdepth⟩
  · exact fun base _ _ h hdepth _ _ => ⟨_, rfl, hnative, rfl, hsize h .native, h.symm, hdepth⟩

/-- A value that is popped lay above the base of the innermost frame. -/
theorem ends_pop_frames (hframes : m.frames = outer.push f) : Ends pop m
    (fun _ m' => m'.frames = m.frames ∧ m'.stack.size < m.stack.size ∧ f.stackBase ≤ m'.stack.size)
    fun _ m' => m'.frames.size ≤ m.frames.size := by
  refine ends_pop (fun rest v hstack hfloor => ⟨rfl, ?_, ?_⟩) fun _ => Nat.le_refl _
  · rw [hstack, Array.size_push]
    exact Nat.lt_succ_self _
  · rw [stackFloor_of_frames hframes] at hfloor
    exact hfloor

/-- The end of a body or a function ends the innermost frame. -/
theorem alters_done (hframes : m.frames = outer.push f) :
    Ends done m (fun _ m' => m.Alters outer f false (none : Option ν) m')
      fun _ m' => m'.frames.size ≤ m.frames.size := by
  refine ends_done (fun frames g hpush hkind => ?_) (fun frames g hpush _ => ?_)
    fun _ => Nat.le_refl _
  · obtain ⟨rfl, rfl⟩ := Array.push_eq_push.mp (hpush.symm.trans hframes)
    refine .ends rfl hkind ?_
    simp only [Array.size_shrink]
    omega
  · dsimp only
    rw [hpush, Array.size_push]
    exact Nat.le_succ _

/-- A local symbol is stored in the innermost frame, after the value has been popped. -/
theorem alters_storeLocal {m₁ : Machine ν} (index : Nat) (v : Value)
    (hframes : m.frames = outer.push f) (hsame : m₁.frames = m.frames)
    (hbase : f.stackBase ≤ m₁.stack.size) :
    Ends (storeLocal index v) m₁ (fun _ m' => m.Alters outer f false (none : Option ν) m')
      fun _ m' => m'.frames.size ≤ m.frames.size := by
  refine ends_storeLocal (fun frames g hpush => ?_) fun _ => ?_
  · obtain ⟨rfl, rfl⟩ := Array.push_eq_push.mp (hpush.symm.trans (hsame.trans hframes))
    exact .works rfl rfl (Nat.le_trans (Nat.min_le_right _ _) hbase)
  · exact Nat.le_of_eq (congrArg Array.size hsame)

/-- What an instruction does to the frames and to the stack. If it fails, it makes no frame. -/
theorem alters_execute (i : Instruction) (hframes : m.frames = outer.push f) :
    Ends (execute i) m (fun called m' => m.Alters outer f i.isReturn called m')
      fun _ m' => m'.frames.size ≤ m.frames.size := by
  cases i with
  | done => exact (alters_done hframes).bind fun _ _ h => ends_pure h
  | localStore index =>
    refine (ends_pop_frames hframes).bind fun v m₁ ⟨hsame, _, hbase⟩ => ?_
    exact (alters_storeLocal index.toNat v hframes hsame hbase).bind fun _ _ h => ends_pure h
  | call n =>
    refine (enters_call n.toNat m).imp (fun called m' hcall => ?_)
      fun _ _ h => Nat.le_of_eq (congrArg Array.size h)
    obtain ⟨g, hpush, hkind, _, hbase, hsize, hdepth⟩ := hcall
    exact .enters (hframes ▸ hpush) hkind hbase
      (fun hfits => Nat.lt_of_lt_of_le (by omega) hfits) hdepth
  | ret0 => exact (alters_ret .nil hframes).bind fun _ _ h => ends_pure h
  | ret1 =>
    refine (ends_pop_frames hframes).bind fun v m₁ ⟨hsame, hless, hbase⟩ => ?_
    have hret : Ends (ret v) m₁ (fun _ m' => m.Alters outer f true none m')
        fun _ m' => m'.frames.size ≤ m.frames.size := by
      refine (alters_ret v (hsame.trans hframes)).imp (fun _ m' hm' => ?_)
        fun _ _ h => hsame ▸ h
      cases hm' with
      | returns hframes' hpc hsize => exact .returns hframes' hpc (by omega)
    exact hret.bind fun _ _ h => ends_pure h
  | _ => exact alters_of_isLocal (by exact trivial) hframes

/-- The next instruction alters frames and stack as its kind allows. -/
theorem alters_executeNext {i : Instruction} (hdecode : m.program.code.decodeAt m.pc = .ok i)
    (hframes : m.frames = outer.push f) :
    Ends executeNext m (fun called m' => m.Alters outer f i.isReturn called m')
      fun _ m' => m'.frames.size ≤ m.frames.size := by
  unfold Ends
  rw [executeNext_eq hdecode]
  have h := alters_execute (m := { m with pc := m.pc + i.size }) i hframes
  unfold Ends at h
  split <;> rename_i heq <;> rw [heq] at h
  · exact h.congr rfl rfl rfl
  · exact h

/-- A call from outside or from a native function opens a frame, or leaves the frames alone. -/
theorem opens_pushCall (callee : Value) (arguments : List Value) (m : Machine ν) :
    Ends (pushCall callee arguments) m (fun _ m' => ∃ g, m.Opens g m')
      fun _ m' => m'.frames = m.frames := by
  refine ends_pushCall_of (fun m₁ hpiles hroom => ?_) fun _ _ _ hpiles => hpiles.frames
  refine (enters_call arguments.length m₁).imp (fun _ m' hcall => ?_)
    fun _ _ h => h.trans hpiles.frames
  obtain ⟨g, hpush, hkind, hreturn, hbase, hsize, hdepth⟩ := hcall
  have hheight := hpiles.size
  have hsame : g.stackBase = m.stack.size := by omega
  rw [hpiles.frames] at hpush hdepth
  rw [hpiles.limits] at hdepth
  exact ⟨g, hpush, hkind, hreturn.trans hpiles.pc, hsame, by omega, hroom, hdepth⟩

end Machine

end Swarm
