import Swarm.Proofs.Exchanges
import Swarm.Proofs.Isolation

/-!
# Calls of hooks

A call of a hook takes two steps: the instruction makes the frame of the native
function, and the native function calls what is bound to its slot, with the
arguments as the host sees them. Then the call is over: its result has taken the
place of the called value and its arguments, or the machine has faulted. No other
step calls a function of the host.
-/

namespace Swarm

/-- What the host reads of a value that it has given to a script. -/
def HostValue.received : HostValue → HostValue
  | .bool b => .int (if b then 1 else 0)
  | .text _ | .list _ => .none
  | v => v

namespace Store

variable {ν : Type} {s s' : Store ν} {v : Value} {r : HostValue}

/-- The host reads the value as the other one; if it is a string, the string is in the table. -/
structure Presents (s : Store ν) (v : Value) (r : HostValue) : Prop where
  reads : s.toHost v = r
  holds : ∀ id, v = .str id → s.strings.Holds id

/-- The host reads a value in the same way as long as its string is kept. -/
theorem Presents.mono (h : s.Presents v r)
    (hkeep : ∀ id bytes, v = .str id → s.strings.Stores id bytes → s'.strings.Stores id bytes) :
    s'.Presents v r := by
  obtain ⟨hreads, hholds⟩ := h
  cases v with
  | str id =>
    obtain ⟨bytes, hbytes⟩ := hholds id rfl
    have hbytes' := hkeep id bytes rfl hbytes
    refine ⟨?_, fun _ heq => ?_⟩
    · rw [← hreads, toHost, toHost, hbytes.get_eq, hbytes'.get_eq]
    · cases heq
      exact hbytes'.holds
  | nil | int n | float x | table id | closure c => exact ⟨hreads, fun _ heq => nomatch heq⟩

/-- What the host gives to a script is read as it is received. -/
theorem presents_ofHost (hs : s.strings.Consistent) (r : HostValue) :
    (s.ofHost r).1.Presents (s.ofHost r).2 r.received := by
  cases r with
  | bytes bs =>
    have hstores := hs.stores_intern bs
    refine ⟨congrArg HostValue.bytes hstores.get_eq, fun id heq => ?_⟩
    cases heq
    exact hstores.holds
  | none | bool b | int n | float x | text t | list vs => exact ⟨rfl, fun _ heq => nomatch heq⟩

end Store

namespace Execution

variable {σ : Type}

section World

variable {ν κ : Type} {m : Machine ν} {w : World σ} {activation : Activation}
  {waiting : List (Suspended κ)}

/-- A failure leaves the state of the host. -/
theorem host_fail (pc : Nat) (error : RuntimeError) :
    (fail m w activation waiting pc error).world.host = w.host := by
  simp only [fail]
  split <;> rfl

/-- The beginning of a call leaves the state of the host. -/
theorem host_startCall (callee : Value) (arguments : List Value) :
    (startCall m w waiting callee arguments).world.host = w.host := by
  simp only [startCall]
  split
  · split
    · rfl
    · rfl
    · exact host_fail _ _
  · rfl

/-- The beginning of the body leaves the state of the host. -/
theorem host_startScript : (startScript m w waiting).world.host = w.host := by
  simp only [startScript]
  split <;> rfl

/-- Following a native function leaves the state of the host. -/
theorem host_follow (origin : Option Nat) (move : Move κ) :
    (follow m w activation waiting origin move).world.host = w.host := by
  match move with
  | .finish (.ok v) =>
    simp only [follow]
    split
    · rfl
    · exact host_fail _ _
  | .finish (.error error) => exact host_fail _ _
  | .call callee arguments rest => exact host_startCall callee arguments
  | .runScript rest => exact host_startScript

/-- Leaving an activation leaves the state of the host. -/
theorem host_close : (close m w activation waiting).world.host = w.host := by
  unfold close
  split
  · rfl
  · split <;> rfl

/-- Carrying out an instruction leaves the state of the host. -/
theorem host_advance : (advance m w activation waiting).world.host = w.host := by
  simp only [advance]
  split
  · rfl
  · rfl
  · exact host_fail _ _

end World

/-- The call of the host that the next step makes. -/
def hostCall? (hooks : HookTable σ) (e : Execution Native Traversal σ) :
    Option (Hook σ × HookCall) :=
  match e.phase with
  | .entering (.hook slot owner) _ =>
    (hooks.slot? slot).map fun hook =>
      (hook, ⟨some owner, e.machine.arguments.map e.machine.store.toHost⟩)
  | _ => none

/-- A step changes the state of the host by the call that it makes, if it makes one, and not
otherwise. -/
theorem host_step (hooks : HookTable σ) (e : Execution Native Traversal σ) :
    (e.step (Native.system hooks)).world.host =
      match e.hostCall? hooks with
      | none => e.world.host
      | some (hook, call) => (hook.function call e.world).2.host := by
  match e with
  | ⟨m, w, activation, .running, waiting⟩ =>
    simp only [step]
    split
    · exact host_advance
    · exact host_close
  | ⟨m, w, activation, .entering native origin, waiting⟩ =>
    refine (host_follow origin _).trans ?_
    cases native with
    | builtin b | print => rfl
    | hook slot owner =>
      simp only [hostCall?, Native.system, Native.enter, HookTable.dispatch]
      cases hooks.slot? slot with
      | none => rfl
      | some hook =>
        simp only [Option.map_some]
        cases hook.function ⟨some owner, m.arguments.map m.store.toHost⟩ w with
        | mk result w' =>
          cases result with
          | error message => rfl
          | ok r =>
            dsimp only
            split <;> rfl
  | ⟨m, w, _, .leaving result, ⟨activation, origin, rest⟩ :: waiting⟩ => exact host_follow origin _
  | ⟨m, w, activation, .leaving result, []⟩ => rfl

end Execution

namespace Machine

variable {ν : Type} {m : Machine ν} {below arguments : List Value} {callee : Value}

/-- Making a frame of the topmost values leaves the others on the stack. -/
theorem toList_shrink (hstack : m.stack.toList = below ++ callee :: arguments) :
    (m.stack.shrink below.length).toList = below := by
  rw [Array.toList_shrink, hstack, List.take_left]

/-- The local symbols of a call are the called value and the values above it. -/
theorem toList_extract_callee (hstack : m.stack.toList = below ++ callee :: arguments) :
    (m.stack.extract below.length m.stack.size).toList = callee :: arguments := by
  rw [Array.toList_extract, hstack, ← Array.length_toList, hstack, List.extract_eq_drop_take',
    List.take_length, List.drop_left]

/-- The arguments of a call are the values above the called one. -/
theorem arguments_enterFrame (hstack : m.stack.toList = below ++ callee :: arguments)
    (kind : FrameKind) : (m.enterFrame kind below.length).arguments = arguments := by
  unfold Machine.arguments enterFrame
  rw [Array.back?_push]
  exact congrArg List.tail (toList_extract_callee hstack)

/-- A call that the depth of calls admits calls the value below the arguments. -/
theorem call_eq_of_toList (hstack : m.stack.toList = below ++ callee :: arguments)
    (hadmitted : m.frames.size < m.limits.maxCallDepth) :
    call arguments.length m = m.callee below.length callee := by
  have hsize : m.stack.size = below.length + (arguments.length + 1) := by
    rw [← Array.length_toList, hstack, List.length_append, List.length_cons]
  have hcallee : m.stack[below.length]? = some callee := by
    rw [← Array.getElem?_toList, hstack, List.getElem?_append_right (Nat.le_refl _), Nat.sub_self,
      List.getElem?_cons_zero]
  rw [call_eq hsize hcallee, if_neg (by omega)]

/-- A call of a native function makes its frame. -/
theorem call_eq_of_native {k : Nat} {entry : NamedNative ν}
    (hstack : m.stack.toList = below ++ .closure (.native k) :: arguments)
    (hadmitted : m.frames.size < m.limits.maxCallDepth)
    (hentry : m.store.natives[k]? = some entry) :
    call arguments.length m = .ok (some entry.native) (m.enterFrame .native below.length) := by
  rw [call_eq_of_toList hstack hadmitted]
  simp only [Machine.callee, hentry]

/-- Values are pushed in their order if there is room for them. -/
theorem forM_push (h : m.stack.size + arguments.length ≤ m.limits.maxStack) :
    arguments.forM push m = .ok ⟨⟩ { m with stack := m.stack ++ arguments.toArray } := by
  induction arguments generalizing m with
  | nil =>
    rw [Array.append_empty]
    rfl
  | cons v rest ih =>
    rw [List.length_cons] at h
    let m₁ : Machine ν := { m with stack := m.stack.push v }
    have hpush : push v m = .ok () m₁ := if_neg (by omega)
    have hrest : rest.forM push m₁ = .ok ⟨⟩ { m₁ with stack := m₁.stack ++ rest.toArray } := by
      apply ih
      change (m.stack.push v).size + rest.length ≤ m.limits.maxStack
      rw [Array.size_push]
      omega
    have hstack : m.stack ++ (v :: rest).toArray = m₁.stack ++ rest.toArray := by simp [m₁]
    rw [hstack]
    exact (Action.bind_ok hpush).trans hrest

/-- A value is pushed with its arguments before it is called, if there is room for them. -/
theorem pushCall_eq (hroom : m.stack.size + arguments.length < m.limits.maxStack) :
    pushCall callee arguments m = call arguments.length
      { m with stack := m.stack.push callee ++ arguments.toArray } := by
  let m₁ : Machine ν := { m with stack := m.stack.push callee }
  have hpush : push callee m = .ok () m₁ := if_neg (by omega)
  have hforM : arguments.forM push m₁ = .ok ⟨⟩ _ := forM_push (by
    change (m.stack.push _).size + arguments.length ≤ m.limits.maxStack
    rw [Array.size_push]
    omega)
  unfold pushCall
  rw [Action.bind_ok hpush, Action.bind_ok hforM]

/-- A call of a native function by the host or by another native function makes its frame. -/
theorem pushCall_eq_of_native {k : Nat} {entry : NamedNative ν}
    (hadmitted : m.frames.size < m.limits.maxCallDepth)
    (hroom : m.stack.size + arguments.length < m.limits.maxStack)
    (hentry : m.store.natives[k]? = some entry) :
    ∃ m', pushCall (.closure (.native k)) arguments m = .ok (some entry.native) m' ∧
      m'.arguments = arguments ∧ m'.store = m.store := by
  let m₁ : Machine ν :=
    { m with stack := m.stack.push (.closure (.native k)) ++ arguments.toArray }
  have hstack : m₁.stack.toList = m.stack.toList ++ .closure (.native k) :: arguments := by
    simp [m₁]
  refine ⟨m₁.enterFrame .native m.stack.toList.length, ?_,
    m₁.arguments_enterFrame hstack .native, rfl⟩
  rw [pushCall_eq hroom]
  exact call_eq_of_native hstack hadmitted hentry

end Machine

namespace Execution

variable {σ : Type} {hooks : HookTable σ}

/-- Where a failure of the native function that begins is recorded. -/
def callSite (e : Execution Native Traversal σ) : Nat :=
  match e.phase with
  | .entering _ origin => origin.getD e.machine.pc
  | _ => e.machine.pc

/-- The next step calls the hook. -/
structure EntersHook (hooks : HookTable σ) (e : Execution Native Traversal σ) (hook : Hook σ)
    (call : HookCall) (e' : Execution Native Traversal σ) : Prop where
  next : e' = e.step (Native.system hooks)
  called : e.hostCall? hooks = some (hook, call)
  returns : ∀ r w, hook.function call e.world = (.ok r, w) → ∃ v, e'.phase = .running ∧
    e.machine.Returns v e'.machine ∧ e'.machine.store.Presents v r.received
  fails : ∀ message w, hook.function call e.world = (.error message, w) →
    e'.phase = .leaving (.error (.raised s!"hook '{hook.name}': {message}")) ∧
      e'.machine.fault = some ⟨e.callSite, .raised s!"hook '{hook.name}': {message}"⟩

/-- A native function for a bound slot calls what is bound to it. -/
theorem entersHook {e : Execution Native Traversal σ} {slot : Nat} {owner : Handle}
    {origin : Option Nat} {hook : Hook σ} (hphase : e.phase = .entering (.hook slot owner) origin)
    (hhook : hooks.slot? slot = some hook) (hready : e.machine.isReady = true)
    (hroom : e.machine.HasRoom) (hstrings : e.machine.store.strings.Consistent) :
    e.EntersHook hooks hook ⟨some owner, e.machine.arguments.map e.machine.store.toHost⟩
      (e.step (Native.system hooks)) := by
  obtain ⟨m, w, activation, phase, waiting⟩ := e
  dsimp only at hphase hready hroom hstrings
  subst hphase
  refine ⟨rfl, ?_, fun r w' hok => ?_, fun message w' herror => ?_⟩
  · simp only [hostCall?, hhook, Option.map_some]
  · obtain ⟨m', hret, hreturns, hstore⟩ :=
      m.exists_returns hroom (m.store.ofHost r).1 (m.store.ofHost r).2
    have hpresents := m.store.presents_ofHost hstrings r
    rw [← hstore] at hpresents
    simp only [step, Native.system, Native.enter, HookTable.dispatch, hhook, hok, follow, hret]
    exact ⟨_, trivial, hreturns, hpresents⟩
  · have hfault : m.fault = none := by simpa [Machine.isReady] using hready
    simp only [step, Native.system, Native.enter, HookTable.dispatch, hhook, herror, follow, fail,
      Machine.recordFault, hfault]
    exact ⟨trivial, rfl⟩

/-- A value is called by the host or by a native function, and the depth of calls and the stack
admit it. -/
theorem startCall_eq_of_native {ν κ : Type} {m : Machine ν} {k : Nat} {entry : NamedNative ν}
    {arguments : List Value} (hready : m.isReady = true)
    (hadmitted : m.frames.size < m.limits.maxCallDepth)
    (hroom : m.stack.size + arguments.length < m.limits.maxStack)
    (hentry : m.store.natives[k]? = some entry) (w : World σ) (waiting : List (Suspended κ)) :
    ∃ m', startCall m w waiting (.closure (.native k)) arguments =
        ⟨m', w, ⟨m.frames.size, .call⟩, .entering entry.native none, waiting⟩ ∧
      m'.arguments = arguments ∧ m'.store = m.store := by
  obtain ⟨m', hcall, harguments, hstore⟩ :=
    Machine.pushCall_eq_of_native hadmitted hroom hentry
  refine ⟨m', ?_, harguments, hstore⟩
  simp only [startCall, if_pos hready, hcall]

/-- The next instruction calls the value with the arguments, and the depth of calls admits it. -/
structure Calls {ν κ : Type} (e : Execution ν κ σ) (below : List Value) (callee : Value)
    (arguments : List Value) : Prop where
  instruction : ∃ n, e.instruction? = some (.call n) ∧ n.toNat = arguments.length
  stack : e.machine.stack.toList = below ++ callee :: arguments
  admitted : e.machine.frames.size < e.machine.limits.maxCallDepth

/-- The first step of a call of a native function. -/
theorem Calls.step_eq {ν κ : Type} {e : Execution ν κ σ} {below arguments : List Value} {k : Nat}
    {entry : NamedNative ν} (h : e.Calls below (.closure (.native k)) arguments)
    (hentry : e.machine.store.natives[k]? = some entry) (sys : NativeSystem ν κ σ) :
    e.step sys =
      ⟨({ e.machine with pc := e.machine.pc + 2 } : Machine ν).enterFrame .native below.length,
        e.world, e.activation, .entering entry.native (some e.machine.pc), e.waiting⟩ := by
  obtain ⟨n, hinstruction, hn⟩ := h.instruction
  obtain ⟨hdecode, hstep⟩ := step_of_instruction? sys hinstruction
  let m : Machine ν := { e.machine with pc := e.machine.pc + 2 }
  have hcall : Machine.executeNext e.machine =
      .ok (some entry.native) (m.enterFrame .native below.length) := by
    rw [Machine.executeNext_eq hdecode]
    change Machine.call n.toNat _ = _
    rw [hn]
    exact Machine.call_eq_of_native h.stack h.admitted hentry
  rw [hstep]
  unfold advance
  rw [hcall]

/-- The next two steps carry out a call of a hook. -/
structure CallsHook (hooks : HookTable σ) (e : Execution Native Traversal σ) (below : List Value)
    (hook : Hook σ) (call : HookCall) (e₁ e₂ : Execution Native Traversal σ) : Prop where
  first : e₁ = e.step (Native.system hooks)
  /-- The first step makes no call of the host. -/
  quiet : e.hostCall? hooks = none ∧ e₁.world = e.world
  site : e₁.callSite = e.machine.pc
  /-- The second step makes one. -/
  enters : e₁.EntersHook hooks hook call e₂
  /-- One value takes the place of the called one and its arguments. -/
  returns : ∀ v, e₁.machine.Returns v e₂.machine → e₂.machine.stack.toList = below ++ [v] ∧
    e₂.machine.frames = e.machine.frames ∧ e₂.machine.pc = e.machine.pc + 2

/-- What a call of a hook is carried out as, in a machine that is sound and tidy. -/
theorem Calls.callsHook {e : Execution Native Traversal σ} {below arguments : List Value} {k : Nat}
    {name : String} {slot : Nat} {owner : Handle} {hook : Hook σ} {allowed : RuntimeError → Prop}
    (h : e.Calls below (.closure (.native k)) arguments)
    (hnative : e.machine.store.natives[k]? = some ⟨name, .hook slot owner⟩)
    (hhook : hooks.slot? slot = some hook) (hsound : e.machine.Sound) (htidy : e.Tidy allowed) :
    let e₁ := e.step (Native.system hooks)
    e₁.phase = .entering (.hook slot owner) (some e.machine.pc) ∧
      e.CallsHook hooks below hook ⟨some owner, arguments.map e.machine.store.toHost⟩ e₁
        (e₁.step (Native.system hooks)) := by
  obtain ⟨n, hinstruction, _⟩ := h.instruction
  have hrunning := running_of_instruction? hinstruction
  let m : Machine Native := { e.machine with pc := e.machine.pc + 2 }
  let e₁ : Execution Native Traversal σ := ⟨m.enterFrame .native below.length, e.world,
    e.activation, .entering (.hook slot owner) (some e.machine.pc), e.waiting⟩
  have hfirst : e.step (Native.system hooks) = e₁ := h.step_eq hnative _
  have hready : e₁.machine.isReady = true := htidy.ready (by simp [hrunning])
  -- The frame begins where the called value was, so there is room for a result.
  have hroom : e₁.machine.HasRoom := by
    have hfits := htidy.machine.fits
    unfold Machine.Fits at hfits
    rw [← Array.length_toList, h.stack, List.length_append, List.length_cons] at hfits
    refine ⟨_, _, rfl, ?_⟩
    change below.length < e.machine.limits.maxStack
    omega
  have henters := entersHook (e := e₁) rfl hhook hready hroom hsound.store.consistent
  have harguments : e₁.machine.arguments = arguments := m.arguments_enterFrame h.stack .native
  have hquiet : e.hostCall? hooks = none := by
    unfold hostCall?
    rw [hrunning]
  rw [harguments] at henters
  rw [hfirst]
  refine ⟨rfl, hfirst.symm, ⟨hquiet, rfl⟩, rfl, henters, fun v hreturns => ?_⟩
  obtain ⟨frames, f, hframes, hframes', hstack, hpc⟩ := hreturns
  obtain ⟨rfl, rfl⟩ := Array.push_eq_push.mp hframes
  refine ⟨?_, hframes', hpc⟩
  have hbelow : (e₁.machine.stack.shrink below.length).toList = below := by
    rw [Array.toList_shrink]
    change List.take below.length (m.stack.shrink below.length).toList = below
    rw [m.toList_shrink h.stack, List.take_length]
  rw [hstack, Array.toList_push]
  exact congrArg (· ++ [v]) hbelow

end Execution

end Swarm
