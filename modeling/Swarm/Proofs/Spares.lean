import Swarm.Machine.Execution
import Swarm.Proofs.Action

/-!
# What instructions spare

Instructions work on the stack, the frames, the tables and the global variables.
They spare the native functions, the queues of messages, the listener and the
bounds of the machine, keep the stack within its bound and record no fault. Their
errors are never those of native functions.
-/

namespace Swarm

/-- A native function has failed. -/
def RuntimeError.IsRaised : RuntimeError → Prop
  | .raised _ => True
  | _ => False

namespace Machine

variable {ν : Type} {m m' m'' : Machine ν}

/-- The stack is within its bound. -/
def Fits (m : Machine ν) : Prop := m.stack.size ≤ m.limits.maxStack

/-- The native function belongs to the machine. -/
def Offers (m : Machine ν) (native : ν) : Prop := ∃ name, ⟨name, native⟩ ∈ m.store.natives

/-- There is room for a result where the innermost call began. -/
def HasRoom (m : Machine ν) : Prop :=
  ∃ (frames : Array Frame) (f : Frame), m.frames = frames.push f ∧ f.stackBase < m.limits.maxStack

/-- The later machine has what instructions spare of the earlier one. -/
structure Spares (m m' : Machine ν) : Prop where
  natives : m'.store.natives = m.store.natives
  mailbox : m'.store.mailbox = m.store.mailbox
  listener : m'.store.listener = m.store.listener
  limits : m'.limits = m.limits
  fault : m'.fault = m.fault
  fits : m.Fits → m'.Fits

/-- A machine spares itself. -/
theorem Spares.refl : m.Spares m := ⟨rfl, rfl, rfl, rfl, rfl, id⟩

/-- What is spared twice is spared. -/
theorem Spares.trans (h : m.Spares m') (h' : m'.Spares m'') : m.Spares m'' where
  natives := h'.natives.trans h.natives
  mailbox := h'.mailbox.trans h.mailbox
  listener := h'.listener.trans h.listener
  limits := h'.limits.trans h.limits
  fault := h'.fault.trans h.fault
  fits hm := h'.fits (h.fits hm)

end Machine

namespace Action

variable {ν α β : Type} {act : Action ν α} {next : α → Action ν β}

/-- The action spares what instructions spare, and does not fail as a native function does. -/
def Sparing (act : Action ν α) : Prop :=
  ∀ m, Ends act m (fun _ m' => m.Spares m') fun e m' => m.Spares m' ∧ ¬e.IsRaised

/-- In addition, a native function that is called belongs to the machine and has room for its
result. -/
def Serves (act : Action ν (Option ν)) : Prop :=
  ∀ m, Ends act m
    (fun called m' => m.Spares m' ∧
      ∀ native, called = some native → m'.Offers native ∧ (m.Fits → m'.HasRoom))
    fun e m' => m.Spares m' ∧ ¬e.IsRaised

/-- Two sparing actions are sparing one after the other. -/
theorem Sparing.bind (h : Sparing act) (hnext : ∀ a, Sparing (next a)) :
    Sparing (act >>= next) := by
  intro m
  refine (h m).bind fun a m' hm' => (hnext a m').imp (fun _ _ h => hm'.trans h) ?_
  exact fun _ _ h => ⟨hm'.trans h.1, h.2⟩

/-- A sparing action may come before one that serves. -/
theorem Sparing.bind_serves {next : α → Action ν (Option ν)} (h : Sparing act)
    (hnext : ∀ a, Serves (next a)) : Serves (act >>= next) := by
  intro m
  refine (h m).bind fun a m' hm' => (hnext a m').imp (fun _ _ h => ?_) fun _ _ h => ?_
  · refine ⟨hm'.trans h.1, fun native hnative => ?_⟩
    obtain ⟨hoffers, hroom⟩ := h.2 native hnative
    exact ⟨hoffers, fun hm => hroom (hm'.fits hm)⟩
  · exact ⟨hm'.trans h.1, h.2⟩

/-- An action after which no native function is called. -/
theorem Sparing.serves_none (h : Sparing act) : Serves (act >>= fun _ => pure none) := by
  intro m
  exact (h m).bind fun _ m' hm' => ends_pure ⟨hm', nofun⟩

/-- Calling no native function serves. -/
theorem serves_none : Serves (pure none : Action ν (Option ν)) :=
  fun _ => ends_pure ⟨.refl, nofun⟩

/-- Looking at the machine is sparing. -/
theorem spares_get : Sparing (get : Action ν (Machine ν)) := fun _ => .refl

/-- A change is sparing if it spares every machine. -/
theorem spares_modify {f : Machine ν → Machine ν} (hf : ∀ m : Machine ν, m.Spares (f m)) :
    Sparing (modify f : Action ν PUnit) := hf

/-- A change with a result is sparing if it spares every machine. -/
theorem spares_modifyGet {f : Machine ν → α × Machine ν} (hf : ∀ m : Machine ν, m.Spares (f m).2) :
    Sparing (modifyGet f : Action ν α) := hf

end Action

namespace Machine

open Swarm.Action

variable {ν : Type} {m : Machine ν}

/-- A stack that is shrunk is not longer than before. -/
theorem size_shrink_le (stack : Array Value) (base : Nat) :
    (stack.shrink base).size ≤ stack.size := by
  rw [Array.size_shrink]
  exact Nat.min_le_right _ _

/-- Pushing a value is sparing, since it fails if there is no room. -/
theorem spares_push (v : Value) : Sparing (push v : Action ν Unit) := by
  intro m
  refine ends_push (fun hroom => ⟨rfl, rfl, rfl, rfl, rfl, fun _ => ?_⟩) fun _ => ⟨.refl, id⟩
  unfold Fits
  rw [Array.size_push]
  exact hroom

/-- Popping a value is sparing. -/
theorem spares_pop : Sparing (pop : Action ν Value) := by
  intro m
  refine ends_pop (fun rest v hstack _ => ⟨rfl, rfl, rfl, rfl, rfl, fun hm => ?_⟩)
    fun _ => ⟨.refl, id⟩
  unfold Fits at *
  rw [hstack, Array.size_push] at hm
  exact Nat.le_of_succ_le hm

/-- Looking at the topmost value is sparing. -/
theorem spares_top : Sparing (top : Action ν Value) :=
  fun _ => ends_top (fun _ _ _ => .refl) fun _ => ⟨.refl, id⟩

/-- Requiring a result is sparing if it is not the failure of a native function. -/
theorem spares_require {α : Type} {result : Except RuntimeError α}
    (herror : ∀ e, result = .error e → ¬e.IsRaised) : Sparing (require result : Action ν α) := by
  intro m
  cases result with
  | ok a => exact .refl
  | error e => exact ⟨.refl, herror e rfl⟩

/-- A jump is sparing. -/
theorem spares_jump (address : UInt32) : Sparing (jump address : Action ν Unit) :=
  spares_modify fun _ => ⟨rfl, rfl, rfl, rfl, rfl, id⟩

/-- Pushing a value as an instruction serves. -/
theorem spares_push_next (v : Value) :
    Serves (do push v; return none : Action ν (Option ν)) :=
  (spares_push v).serves_none

/-- Making a frame of the topmost values is sparing. -/
theorem spares_enterFrame (m : Machine ν) (kind : FrameKind) (base : Nat) :
    m.Spares (m.enterFrame kind base) :=
  ⟨rfl, rfl, rfl, rfl, rfl, fun hm => Nat.le_trans (size_shrink_le m.stack base) hm⟩

/-- What is called lies on the stack, so its result has room there. -/
theorem serves_call (n : Nat) : Serves (call n : Action ν (Option ν)) := by
  intro m
  refine ends_call ?_ ?_ (fun _ => ⟨.refl, id⟩) (fun _ => ⟨.refl, id⟩)
    (fun _ _ _ _ _ => ⟨.refl, id⟩) fun _ => ⟨.refl, id⟩
  · intro base address _ _ _
    exact ⟨(spares_enterFrame m .function base).trans ⟨rfl, rfl, rfl, rfl, rfl, id⟩, nofun⟩
  · intro base id entry hsize _ _ hentry
    refine ⟨spares_enterFrame m .native base, fun native hnative => ⟨⟨entry.name, ?_⟩, ?_⟩⟩
    · cases hnative
      exact Array.mem_of_getElem? hentry
    · have hlt : base < m.stack.size := by omega
      exact fun hm => ⟨_, _, rfl, Nat.lt_of_lt_of_le hlt hm⟩

/-- A return is sparing. -/
theorem spares_ret (v : Value) : Sparing (ret v : Action ν Unit) := by
  intro m
  refine ends_ret (fun frames f _ => ?_) fun _ => ⟨.refl, id⟩
  have hdrop : m.Spares { m with frames, stack := m.stack.shrink f.stackBase, pc := f.returnPc } :=
    ⟨rfl, rfl, rfl, rfl, rfl, fun hm => Nat.le_trans (size_shrink_le m.stack f.stackBase) hm⟩
  exact (spares_push v _).imp (fun _ _ h => hdrop.trans h) fun _ _ h => ⟨hdrop.trans h.1, h.2⟩

/-- The end of the body is sparing. -/
theorem spares_done : Sparing (done : Action ν Unit) := by
  intro m
  refine ends_done (fun frames f _ _ => ⟨rfl, rfl, rfl, rfl, rfl, fun hm => ?_⟩)
    (fun frames f _ _ => ⟨⟨rfl, rfl, rfl, rfl, rfl, id⟩, id⟩) fun _ => ⟨.refl, id⟩
  exact Nat.le_trans (size_shrink_le m.stack f.stackBase) hm

/-- Setting a local symbol is sparing. -/
theorem spares_storeLocal (index : Nat) (v : Value) :
    Sparing (storeLocal index v : Action ν Unit) :=
  fun _ => ends_storeLocal (fun _ _ _ => ⟨rfl, rfl, rfl, rfl, rfl, id⟩) fun _ => ⟨.refl, id⟩

end Machine

section Errors

variable {v : Value} {e : RuntimeError}

/-- No operator fails as a native function does. -/
theorem BinaryOp.not_isRaised_of_apply {op : BinaryOp} {left right : Value}
    (h : op.apply left right = .error e) : ¬e.IsRaised := by
  have hints (a b : Int64) (h : op.onInts a b = .error e) : ¬e.IsRaised := by
    cases op <;> simp only [onInts] at h <;> first | cases h | (split at h <;> cases h; exact id)
  have hnumber (v : Value) (h : op.number v = .error e) : ¬e.IsRaised := by
    cases v <;> cases h <;> exact id
  have hfloats (h : (do
      let a ← op.number left
      let b ← op.number right
      return op.onFloats a b) = .error e) : ¬e.IsRaised := by
    cases hleft : op.number left with
    | error e' =>
      rw [hleft] at h
      cases h
      exact hnumber left hleft
    | ok a =>
      cases hright : op.number right with
      | error e' =>
        rw [hleft, hright] at h
        cases h
        exact hnumber right hright
      | ok b =>
        rw [hleft, hright] at h
        cases h
  cases op with
  | and | or | eq | neq => cases h
  | _ =>
    simp only [apply] at h
    split at h
    · exact hints _ _ h
    · exact hfloats h

/-- Negation does not fail as a native function does. -/
theorem Value.not_isRaised_of_negate (h : v.negate = .error e) : ¬e.IsRaised := by
  cases v <;> cases h <;> exact id

/-- Expecting a table does not fail as a native function does. -/
theorem Value.not_isRaised_of_expectTable {operation : String}
    (h : v.expectTable operation = .error e) : ¬e.IsRaised := by
  cases v <;> cases h <;> exact id

/-- Expecting a key does not fail as a native function does. -/
theorem Value.not_isRaised_of_expectKey (h : v.expectKey = .error e) : ¬e.IsRaised := by
  cases v <;> cases h <;> exact id

/-- Looking at a local symbol does not fail as a native function does. -/
theorem Machine.not_isRaised_of_local? {ν : Type} {m : Machine ν} {index : Nat}
    (h : m.local? index = .error e) : ¬e.IsRaised := by
  unfold local? at h
  split at h <;> cases h
  exact id

/-- Looking at an argument does not fail as a native function does. -/
theorem Machine.not_isRaised_of_argument {ν : Type} {m : Machine ν} {function : String}
    {index : Nat} (h : m.argument function index = .error e) : ¬e.IsRaised := by
  unfold argument at h
  split at h
  · cases h
    exact id
  · exact not_isRaised_of_local? h

end Errors

namespace Machine

open Swarm.Action

variable {ν : Type} {m : Machine ν}

/-- Every instruction serves. -/
theorem serves_execute (i : Instruction) : Serves (execute i : Action ν (Option ν)) := by
  have htable (v : Value) (operation : String) :
      Sparing (require (v.expectTable operation) : Action ν TableId) :=
    spares_require fun _ => Value.not_isRaised_of_expectTable
  have hkey (v : Value) : Sparing (require v.expectKey : Action ν TableKey) :=
    spares_require fun _ => Value.not_isRaised_of_expectKey
  cases i with
  | done => exact spares_done.serves_none
  | nop => exact serves_none
  | pushNil | pushInt _ | pushFloat _ | pushClosure _ => exact spares_push_next _
  | pushString string => exact spares_get.bind_serves fun m => spares_push_next _
  | pushTable =>
    refine Sparing.bind_serves ?_ fun id => spares_push_next _
    exact spares_modifyGet fun _ => ⟨rfl, rfl, rfl, rfl, rfl, id⟩
  | dup => exact spares_top.bind_serves fun v => spares_push_next v
  | pop => exact spares_pop.serves_none
  | tablePut =>
    refine spares_pop.bind_serves fun value => spares_pop.bind_serves fun keyValue =>
      spares_pop.bind_serves fun tableValue => (htable _ _).bind_serves fun id =>
      (hkey _).bind_serves fun key => Sparing.serves_none (spares_modify ?_)
    exact fun _ => ⟨rfl, rfl, rfl, rfl, rfl, fun h => h⟩
  | tableGet =>
    refine spares_pop.bind_serves fun keyValue => spares_pop.bind_serves fun tableValue =>
      (htable _ _).bind_serves fun id => (hkey _).bind_serves fun key => ?_
    exact spares_get.bind_serves fun m => spares_push_next _
  | globalLoad name => exact spares_get.bind_serves fun m => spares_push_next _
  | globalStore name =>
    refine spares_pop.bind_serves fun value => Sparing.serves_none (spares_modify ?_)
    exact fun _ => ⟨rfl, rfl, rfl, rfl, rfl, id⟩
  | localLoad index =>
    refine spares_get.bind_serves fun m => Sparing.bind_serves ?_ fun v => spares_push_next v
    exact spares_require fun _ => not_isRaised_of_local?
  | localStore index =>
    exact spares_pop.bind_serves fun v => (spares_storeLocal _ v).serves_none
  | call argumentCount => exact serves_call _
  | ret0 => exact (spares_ret .nil).serves_none
  | ret1 => exact spares_pop.bind_serves fun v => (spares_ret v).serves_none
  | jump address => exact (spares_jump address).serves_none
  | jumpIfZero address | jumpIfNotZero address =>
    refine spares_pop.bind_serves fun v => ?_
    split
    · exact (spares_jump address).serves_none
    · exact serves_none
  | binary op =>
    refine spares_pop.bind_serves fun right => spares_pop.bind_serves fun left => ?_
    refine Sparing.bind_serves ?_ fun v => spares_push_next v
    exact spares_require fun _ => BinaryOp.not_isRaised_of_apply
  | neg =>
    refine spares_pop.bind_serves fun v => Sparing.bind_serves ?_ fun v => spares_push_next v
    exact spares_require fun _ => Value.not_isRaised_of_negate
  | not => exact spares_pop.bind_serves fun v => spares_push_next _

/-- Carrying out the next instruction serves. -/
theorem serves_executeNext : Serves (executeNext : Action ν (Option ν)) := by
  refine spares_get.bind_serves fun m => ?_
  split
  · exact fun _ => ⟨.refl, id⟩
  · rename_i i _
    refine Sparing.bind_serves (spares_modify ?_) fun _ => serves_execute i
    exact fun _ => ⟨rfl, rfl, rfl, rfl, rfl, id⟩

/-- Pushing a value with its arguments and calling it. -/
theorem serves_pushCall (callee : Value) (arguments : List Value) :
    Serves (pushCall callee arguments : Action ν (Option ν)) := by
  have hforM (arguments : List Value) : Sparing (arguments.forM push : Action ν PUnit) := by
    induction arguments with
    | nil => exact fun _ => .refl
    | cons v rest ih => exact (spares_push v).bind fun _ => ih
  exact (spares_push callee).bind_serves fun _ =>
    (hforM arguments).bind_serves fun _ => serves_call _

end Machine

end Swarm
