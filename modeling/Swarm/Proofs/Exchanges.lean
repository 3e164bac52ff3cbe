import Swarm.Proofs.Entries
import Swarm.Proofs.Paths
import Swarm.Proofs.Spares

/-!
# What a machine exchanges with the outside

On a path only the taking of messages shortens the inbound queue, and only calls
of `send` lengthen the outbound queue. The native functions and the bounds of the
machine stay as they are, and the first fault stays for good. A native function
has always room for its result, so a call of `send` that has queued its payload
never fails.
-/

namespace Swarm

namespace Machine

variable {ν : Type} {m m' m'' : Machine ν}

/-- The later machine has the native functions, the queues and the bounds of the earlier one, and
its fault if there was one. -/
structure Retains (m m' : Machine ν) : Prop where
  natives : m'.store.natives = m.store.natives
  mailbox : m'.store.mailbox = m.store.mailbox
  limits : m'.limits = m.limits
  fault : ∀ f, m.fault = some f → m'.fault = some f

/-- A machine retains what it has. -/
theorem Retains.refl : m.Retains m := ⟨rfl, rfl, rfl, fun _ h => h⟩

/-- Retaining twice is retaining. -/
theorem Retains.trans (h : m.Retains m') (h' : m'.Retains m'') : m.Retains m'' where
  natives := h'.natives.trans h.natives
  mailbox := h'.mailbox.trans h.mailbox
  limits := h'.limits.trans h.limits
  fault f hf := h'.fault f (h.fault f hf)

/-- Sparing changes retain what the machine has. -/
theorem Spares.retains (h : m.Spares m') : m.Retains m' :=
  ⟨h.natives, h.mailbox, h.limits, fun _ hf => h.fault.trans hf⟩

/-- Recording a fault retains what the machine has. -/
theorem retains_recordFault (m : Machine ν) (pc : Nat) (error : RuntimeError) :
    m.Retains (m.recordFault pc error) := by
  unfold recordFault
  cases hfault : m.fault with
  | none => exact ⟨rfl, rfl, rfl, fun f hf => nomatch hfault.symm.trans hf⟩
  | some f => exact .refl

/-- The stack is within its bound, and the machine has failed only as allowed. -/
structure Tidy (allowed : RuntimeError → Prop) (m : Machine ν) : Prop where
  fits : m.Fits
  fault : ∀ f, m.fault = some f → allowed f.error

end Machine

/-- A native function of the machine that fails does so as allowed. -/
def NativeSystem.FailsAs {ν κ σ : Type} (sys : NativeSystem ν κ σ)
    (allowed : RuntimeError → Prop) (m : Machine ν) : Prop :=
  ∀ native, m.Offers native → ∀ (m' : Machine ν) w error,
    (sys.enter native m' w).move = .finish (.error error) → allowed error

namespace Execution

variable {ν κ σ : Type} {allowed : RuntimeError → Prop} {m m' : Machine ν} {w : World σ}
  {activation : Activation} {waiting : List (Suspended κ)} {e : Execution ν κ σ}

/-- The machine is tidy. It has not faulted unless the innermost activation is left with an error,
which is one of those that are allowed; a native function that begins belongs to the machine and has
room for its result. -/
structure Tidy (allowed : RuntimeError → Prop) (e : Execution ν κ σ) : Prop where
  machine : e.machine.Tidy allowed
  room : ∀ native origin, e.phase = .entering native origin →
    e.machine.Offers native ∧ e.machine.HasRoom
  ready : (∀ error, e.phase ≠ .leaving (.error error)) → e.machine.isReady = true
  error : ∀ error, e.phase = .leaving (.error error) → allowed error

/-- The execution is tidy, and its machine retains what the earlier one had. -/
structure TidyFrom (allowed : RuntimeError → Prop) (m : Machine ν) (e : Execution ν κ σ) : Prop
    extends e.Tidy allowed where
  retains : m.Retains e.machine

/-- What is tidy from a later machine is tidy from an earlier one. -/
theorem TidyFrom.of_retains (h : m.Retains m') (he : e.TidyFrom allowed m') :
    e.TidyFrom allowed m :=
  { he with retains := h.trans he.retains }

/-- Sparing changes keep a machine tidy. -/
theorem tidy_of_spares (hm : m.Tidy allowed) (h : m.Spares m') : m'.Tidy allowed :=
  ⟨h.fits hm.fits, fun f hf => hm.fault f (h.fault.symm.trans hf)⟩

/-- A ready machine stays ready through sparing changes. -/
theorem isReady_of_spares (hready : m.isReady = true) (h : m.Spares m') : m'.isReady = true :=
  isReady_of_fault_eq h.fault hready

/-- An allowed failure is recorded. -/
theorem tidyFrom_fail (hm : m.Tidy allowed) (pc : Nat) {error : RuntimeError}
    (herror : allowed error) : (fail m w activation waiting pc error).TidyFrom allowed m where
  machine := by
    refine ⟨?_, fun f hf => ?_⟩
    · have hfits := hm.fits
      change (m.recordFault pc error).Fits
      unfold Machine.recordFault
      split <;> exact hfits
    · change (m.recordFault pc error).fault = some f at hf
      unfold Machine.recordFault at hf
      split at hf
      · cases hf
        exact herror
      · exact hm.fault f hf
  room _ _ h := nomatch h
  ready h := absurd rfl (h error)
  error _ h := by
    cases h
    exact herror
  retains := m.retains_recordFault pc error

/-- Work of instructions goes on. -/
theorem tidyFrom_running (hm : m.Tidy allowed) (hready : m.isReady = true) (h : m.Spares m') :
    TidyFrom allowed m (⟨m', w, activation, .running, waiting⟩ : Execution ν κ σ) where
  machine := tidy_of_spares hm h
  room _ _ h := nomatch h
  ready _ := isReady_of_spares hready h
  error _ h := nomatch h
  retains := h.retains

/-- A native function is about to begin. -/
theorem tidyFrom_entering (hm : m.Tidy allowed) (hready : m.isReady = true) (h : m.Spares m')
    {native : ν} (origin : Option Nat) (hcalled : m'.Offers native ∧ (m.Fits → m'.HasRoom)) :
    TidyFrom allowed m
      (⟨m', w, activation, .entering native origin, waiting⟩ : Execution ν κ σ) where
  machine := tidy_of_spares hm h
  room _ _ h := by
    cases h
    exact ⟨hcalled.1, hcalled.2 hm.fits⟩
  ready _ := isReady_of_spares hready h
  error _ h := nomatch h
  retains := h.retains

/-- The innermost activation is left with a value. -/
theorem tidyFrom_leaving (hm : m.Tidy allowed) (hready : m.isReady = true) (h : m.Spares m')
    (v : Value) :
    TidyFrom allowed m (⟨m', w, activation, .leaving (.ok v), waiting⟩ : Execution ν κ σ) where
  machine := tidy_of_spares hm h
  room _ _ h := nomatch h
  ready _ := isReady_of_spares hready h
  error _ h := nomatch h
  retains := h.retains

section Parts

variable (hallowed : ∀ error : RuntimeError, ¬error.IsRaised → allowed error)

include hallowed

/-- A call that begins on a tidy machine is tidy. -/
theorem tidyFrom_startCall (hm : m.Tidy allowed) (callee : Value) (arguments : List Value) :
    (startCall m w waiting callee arguments).TidyFrom allowed m := by
  unfold startCall
  dsimp only
  split
  · rename_i hready
    have hserves := Machine.serves_pushCall callee arguments m
    unfold Action.Ends at hserves
    split <;> rename_i heq <;> rw [heq] at hserves
    · exact tidyFrom_running hm hready hserves.1
    · exact tidyFrom_entering hm hready hserves.1 none (hserves.2 _ rfl)
    · have htidy := tidy_of_spares hm hserves.1
      exact (tidyFrom_fail htidy _ (hallowed _ hserves.2)).of_retains hserves.1.retains
  · exact ⟨⟨hm, nofun, fun h => absurd rfl (h .halted), fun _ h => by
      cases h
      exact hallowed _ id⟩, .refl⟩

/-- A body that begins on a tidy machine is tidy. -/
theorem tidyFrom_startScript (hm : m.Tidy allowed) :
    (startScript m w waiting).TidyFrom allowed m := by
  unfold startScript
  dsimp only
  split
  · rename_i hready
    exact tidyFrom_running hm hready ⟨rfl, rfl, rfl, rfl, rfl, id⟩
  · exact ⟨⟨hm, nofun, fun h => absurd rfl (h .halted), fun _ h => by
      cases h
      exact hallowed _ id⟩, .refl⟩

/-- Following a native function that fails only as allowed. -/
theorem tidyFrom_follow (hm : m.Tidy allowed) {origin : Option Nat} {move : Move κ}
    (herror : ∀ error, move = .finish (.error error) → allowed error)
    (hready : (∀ error, move ≠ .finish (.error error)) → m.isReady = true) :
    (follow m w activation waiting origin move).TidyFrom allowed m := by
  cases move with
  | finish result =>
    cases result with
    | ok v =>
      have hspares := Machine.spares_ret v m
      unfold Action.Ends at hspares
      simp only [follow]
      split <;> rename_i heq <;> rw [heq] at hspares
      · exact tidyFrom_running hm (hready (by simp)) hspares
      · have htidy := tidy_of_spares hm hspares.1
        exact (tidyFrom_fail htidy _ (hallowed _ hspares.2)).of_retains hspares.1.retains
    | error error => exact tidyFrom_fail hm _ (herror error rfl)
  | call callee arguments rest => exact tidyFrom_startCall hallowed hm callee arguments
  | runScript rest => exact tidyFrom_startScript hallowed hm

/-- Leaving an activation is tidy. -/
theorem tidyFrom_close (hm : m.Tidy allowed) (hready : m.isReady = true) :
    (close m w activation waiting).TidyFrom allowed m := by
  unfold close
  cases activation.purpose with
  | script => exact tidyFrom_leaving hm hready .refl .nil
  | call =>
    have hspares := Machine.spares_pop m
    unfold Action.Ends at hspares
    dsimp only
    split <;> rename_i heq <;> rw [heq] at hspares
    · exact tidyFrom_leaving hm hready hspares _
    · refine ⟨⟨tidy_of_spares hm hspares.1, nofun, fun h => absurd rfl (h _), fun _ h => ?_⟩,
        hspares.1.retains⟩
      cases h
      exact hallowed _ hspares.2

/-- Carrying out an instruction is tidy. -/
theorem tidyFrom_advance (hm : m.Tidy allowed) (hready : m.isReady = true) :
    (advance m w activation waiting).TidyFrom allowed m := by
  have hserves := Machine.serves_executeNext m
  unfold Action.Ends at hserves
  unfold advance
  dsimp only
  split <;> rename_i heq <;> rw [heq] at hserves
  · exact tidyFrom_running hm hready hserves.1
  · exact tidyFrom_entering hm hready hserves.1 _ (hserves.2 _ rfl)
  · have htidy := tidy_of_spares hm hserves.1
    exact (tidyFrom_fail htidy _ (hallowed _ hserves.2)).of_retains hserves.1.retains

end Parts

end Execution

namespace Machine

variable {ν : Type} {m : Machine ν}

/-- The first argument is the local symbol after the called value. -/
theorem argument_one (m : Machine ν) (function : String) :
    m.argument function 1 = match m.arguments with
      | [] => .error (.missingArgument function 1)
      | v :: _ => .ok v := by
  unfold argument localCount local? arguments
  cases m.frames.back? with
  | none => rfl
  | some frame =>
    obtain ⟨kind, returnPc, ⟨locals⟩, stackBase⟩ := frame
    match locals with
    | [] | [_] | _ :: _ :: _ => rfl

/-- The innermost frame has ended with the result. -/
def Returns (m : Machine ν) (v : Value) (m' : Machine ν) : Prop :=
  ∃ (frames : Array Frame) (f : Frame), m.frames = frames.push f ∧ m'.frames = frames ∧
    m'.stack = (m.stack.shrink f.stackBase).push v ∧ m'.pc = f.returnPc

/-- A frame ends with one result. -/
theorem Returns.unique {m' : Machine ν} {v v' : Value} (h : m.Returns v m') (h' : m.Returns v' m') :
    v = v' := by
  obtain ⟨_, _, _, _, hstack, _⟩ := h
  obtain ⟨_, _, _, _, hstack', _⟩ := h'
  exact (Array.push_eq_push.mp (hstack.symm.trans hstack')).1

/-- A native function that has room for its result returns, whatever it has done to the store. -/
theorem exists_returns (h : m.HasRoom) (s : Store ν) (v : Value) :
    ∃ m', ret v { m with store := s } = .ok () m' ∧ m.Returns v m' ∧ m'.store = s := by
  obtain ⟨frames, f, hframes, hroom⟩ := h
  have hsize : ¬m.limits.maxStack ≤ (m.stack.shrink f.stackBase).size := by
    rw [Array.size_shrink]
    omega
  let m' : Machine ν :=
    { m with
      store := s
      frames := frames
      stack := (m.stack.shrink f.stackBase).push v
      pc := f.returnPc }
  refine ⟨m', ?_, ⟨frames, f, hframes, rfl, rfl, rfl⟩, rfl⟩
  unfold ret
  simp only [hframes, Array.back?_push, Array.pop_push, push, if_neg hsize]
  rfl

end Machine

/-- A visit of rows never fails by itself. -/
theorem Traversal.move_ne_error (t : Traversal) (error : RuntimeError) :
    t.move ≠ .finish (.error error) := by
  unfold move
  split <;> nofun

/-- The payload that a native function queues. -/
def Native.sends? (m : Machine Native) : Native → Option Bytes
  | .builtin .send =>
    match m.arguments with
    | .str id :: _ => some (m.store.strings.get id)
    | _ => none
  | _ => none

namespace Moment

variable {σ : Type}

/-- The message that is taken. -/
def taken? : Moment σ → Option Message
  | .takes message _ => some message
  | _ => none

/-- The payload of a call of `send` that succeeds. -/
def sent? : Moment σ → Option Bytes
  | .works e e' =>
    match e.phase, e'.phase with
    | .entering native _, .running => native.sends? e.machine
    | _, _ => none
  | _ => none

variable {e e' : Execution Native Traversal σ}

/-- Nothing is sent if no native function begins. -/
theorem sent?_of_quiet (h : ∀ native origin, e.phase ≠ .entering native origin) :
    sent? (.works e e') = none := by
  unfold sent?
  cases hphase : e.phase with
  | entering native origin => exact absurd hphase (h native origin)
  | running | leaving result => simp only [hphase]

/-- Nothing is sent if the native function queues nothing. -/
theorem sent?_of_silent {native : Native} {origin : Option Nat}
    (hphase : e.phase = .entering native origin) (h : native.sends? e.machine = none) :
    sent? (.works e e') = none := by
  unfold sent?
  cases hphase' : e'.phase with
  | running => simp only [hphase, hphase', h]
  | entering native' origin' | leaving result => simp only [hphase, hphase']

end Moment

variable {σ : Type} {hooks : HookTable σ} {allowed : RuntimeError → Prop}

/-- A native function that queues nothing leaves the queues and all native functions alone. -/
theorem Native.enter_of_silent {native : Native} {m : Machine Native}
    (h : native.sends? m = none) (hooks : HookTable σ) (w : World σ) :
    (native.enter hooks m w).store.natives = m.store.natives ∧
      (native.enter hooks m w).store.mailbox = m.store.mailbox := by
  cases native with
  | builtin b =>
    cases b with
    | send =>
      simp only [enter, Builtin.enter, Builtin.runSend, m.argument_one]
      cases harguments : m.arguments with
      | nil => exact ⟨rfl, rfl⟩
      | cons v rest =>
        cases v with
        | str id => simp [sends?, harguments] at h
        | nil | int _ | float _ | table _ | closure _ => exact ⟨rfl, rfl⟩
    | listen =>
      simp only [enter, Builtin.enter, Builtin.runListen, m.argument_one]
      cases m.arguments with
      | nil => exact ⟨rfl, rfl⟩
      | cons v rest => cases v <;> exact ⟨rfl, rfl⟩
    | size => exact ⟨rfl, rfl⟩
    | foreach =>
      simp only [enter, Builtin.enter]
      split <;> exact ⟨rfl, rfl⟩
  | print => exact ⟨rfl, rfl⟩
  | hook slot owner =>
    simp only [enter, HookTable.dispatch]
    split
    · exact ⟨rfl, rfl⟩
    · split
      · exact ⟨rfl, rfl⟩
      · rename_i result _ _
        cases result <;> exact ⟨rfl, rfl⟩

/-- A native function that queues a payload does nothing else and succeeds. -/
theorem Native.enter_of_sends {native : Native} {m : Machine Native} {payload : Bytes}
    (h : native.sends? m = some payload) (hooks : HookTable σ) (w : World σ) :
    (native.enter hooks m w).store.natives = m.store.natives ∧
      (native.enter hooks m w).store.mailbox =
        { m.store.mailbox with outbound := m.store.mailbox.outbound ++ [payload] } ∧
      (native.enter hooks m w).move = .finish (.ok .nil) := by
  unfold sends? at h
  split at h
  · split at h
    · rename_i id rest harguments
      cases h
      simp only [enter, Builtin.enter, Builtin.runSend, m.argument_one, harguments]
      exact ⟨rfl, rfl, rfl⟩
    · cases h
  · cases h

/-- What happens between the two machines: the messages that are taken come from the front of the
inbound queue, the payloads that are sent go to the end of the outbound queue, and nothing else
changes the queues. -/
structure Machine.Exchanges (m : Machine Native) (moments : List (Moment σ)) (m' : Machine Native) :
    Prop where
  natives : m'.store.natives = m.store.natives
  limits : m'.limits = m.limits
  inbound : m.store.mailbox.inbound =
    moments.filterMap Moment.taken? ++ m'.store.mailbox.inbound
  outbound : m'.store.mailbox.outbound =
    m.store.mailbox.outbound ++ moments.filterMap Moment.sent?
  fault : ∀ f, m.fault = some f → m'.fault = some f

namespace Machine

variable {m m' m'' : Machine Native} {moments more : List (Moment σ)}

/-- What is exchanged one after the other is exchanged. -/
theorem Exchanges.append (h : m.Exchanges moments m') (h' : m'.Exchanges more m'') :
    m.Exchanges (moments ++ more) m'' where
  natives := h'.natives.trans h.natives
  limits := h'.limits.trans h.limits
  inbound := by rw [h.inbound, h'.inbound, List.filterMap_append, List.append_assoc]
  outbound := by rw [h'.outbound, h.outbound, List.filterMap_append, List.append_assoc]
  fault f hf := h'.fault f (h.fault f hf)

/-- Nothing is exchanged at moments at which nothing is taken or sent. -/
theorem Retains.exchanges (h : m.Retains m') (htaken : moments.filterMap Moment.taken? = [])
    (hsent : moments.filterMap Moment.sent? = []) : m.Exchanges moments m' where
  natives := h.natives
  limits := h.limits
  inbound := by rw [htaken, h.mailbox, List.nil_append]
  outbound := by rw [hsent, h.mailbox, List.append_nil]
  fault := h.fault

end Machine

/-- Only the native functions of the machine matter. -/
theorem NativeSystem.FailsAs.congr {ν κ : Type} {sys : NativeSystem ν κ σ} {m m' : Machine ν}
    (h : sys.FailsAs allowed m) (hnatives : m'.store.natives = m.store.natives) :
    sys.FailsAs allowed m' := by
  intro native hoffers
  apply h native
  unfold Machine.Offers at *
  rwa [hnatives] at hoffers

namespace Execution

variable (hallowed : ∀ error : RuntimeError, ¬error.IsRaised → allowed error)

include hallowed

/-- A native function that begins queues at most one payload, and only if it succeeds. -/
theorem exchanges_entering {m : Machine Native} {w : World σ} {activation : Activation}
    {native : Native} {origin : Option Nat} {waiting : List (Suspended Traversal)}
    (hm : m.Tidy allowed) (hready : m.isReady = true) (hroom : m.HasRoom)
    (hfails : ∀ error, (native.enter hooks m w).move = .finish (.error error) → allowed error) :
    let e : Execution Native Traversal σ := ⟨m, w, activation, .entering native origin, waiting⟩
    let e' := e.step (Native.system hooks)
    e'.Tidy allowed ∧ m.Exchanges [.works e e'] e'.machine := by
  intro e e'
  let m₁ : Machine Native := { m with store := (native.enter hooks m w).store }
  have htidy : e'.TidyFrom allowed m₁ :=
    tidyFrom_follow (m := m₁) hallowed ⟨hm.fits, hm.fault⟩ hfails fun _ => hready
  have hlimits : e'.machine.limits = m.limits := htidy.retains.limits
  have hmailbox' : e'.machine.store.mailbox = (native.enter hooks m w).store.mailbox :=
    htidy.retains.mailbox
  refine ⟨htidy.toTidy, ?_⟩
  cases hpayload : native.sends? m with
  | none =>
    obtain ⟨hnatives, hmailbox⟩ := Native.enter_of_silent hpayload hooks w
    have hretains : m.Retains e'.machine :=
      ⟨htidy.retains.natives.trans hnatives, hmailbox'.trans hmailbox, hlimits,
        htidy.retains.fault⟩
    have hsent : Moment.sent? (.works e e') = none := Moment.sent?_of_silent rfl hpayload
    exact hretains.exchanges rfl (List.filterMap_cons_none hsent)
  | some payload =>
    obtain ⟨hnatives, hmailbox, hmove⟩ := Native.enter_of_sends hpayload hooks w
    -- There is room for the result, so the call cannot fail after it has queued the payload.
    obtain ⟨m', hret, _⟩ := m.exists_returns hroom (native.enter hooks m w).store .nil
    have hphase : e'.phase = .running := by
      change (follow m₁ _ activation waiting origin (native.enter hooks m w).move).phase = .running
      simp only [hmove, follow, m₁, hret]
    have hsome : Moment.sent? (.works e e') = some payload := by
      simp only [Moment.sent?, hphase]
      exact hpayload
    have hsent : [Moment.works e e'].filterMap Moment.sent? = [payload] :=
      List.filterMap_cons_some hsome
    rw [hmailbox] at hmailbox'
    refine ⟨htidy.retains.natives.trans hnatives, hlimits, ?_, ?_, htidy.retains.fault⟩
    · rw [hmailbox']
      rfl
    · rw [hmailbox', hsent]

/-- What one step exchanges. -/
theorem exchanges_step {e : Execution Native Traversal σ} (he : e.Tidy allowed)
    (hfails : (Native.system hooks).FailsAs allowed e.machine) :
    (e.step (Native.system hooks)).Tidy allowed ∧
      e.machine.Exchanges [.works e (e.step (Native.system hooks))]
        (e.step (Native.system hooks)).machine := by
  have hquiet {e e' : Execution Native Traversal σ} (hphase : ∀ native origin,
      e.phase ≠ .entering native origin) (htidy : e'.TidyFrom allowed e.machine) :
      e'.Tidy allowed ∧ e.machine.Exchanges [.works e e'] e'.machine := by
    have hsent : Moment.sent? (.works e e') = none := Moment.sent?_of_quiet hphase
    exact ⟨htidy.toTidy, htidy.retains.exchanges rfl (List.filterMap_cons_none hsent)⟩
  obtain ⟨m, w, activation, phase, waiting⟩ := e
  cases phase with
  | running =>
    have hready : m.isReady = true := he.ready (by simp)
    refine hquiet (by simp) ?_
    simp only [step]
    split
    · exact tidyFrom_advance hallowed he.machine hready
    · exact tidyFrom_close hallowed he.machine hready
  | entering native origin =>
    obtain ⟨hoffers, hroom⟩ := he.room native origin rfl
    exact exchanges_entering hallowed he.machine (he.ready (by simp)) hroom
      (hfails native hoffers m w)
  | leaving result =>
    cases waiting with
    | nil => exact hquiet (by simp) ⟨he, .refl⟩
    | cons suspended waiting =>
      refine hquiet (by simp)
        (tidyFrom_follow hallowed he.machine (fun error hmove => ?_) fun hmove => ?_)
      · cases result with
        | ok v => exact (suspended.rest.move_ne_error error hmove).elim
        | error e =>
          cases hmove
          exact he.error _ rfl
      · cases result with
        | ok v => exact he.ready (by simp)
        | error e => exact absurd rfl (hmove e)

end Execution

namespace Stage

variable {s s' t : Stage σ} {moments : List (Moment σ)}

/-- The machine is tidy, and so is the execution in whose middle it is. -/
def Tidy (allowed : RuntimeError → Prop) : Stage σ → Prop
  | .idle m => m.Tidy allowed
  | .busy e => e.Tidy allowed

/-- What one move exchanges. -/
theorem Moves.exchanges (hallowed : ∀ error : RuntimeError, ¬error.IsRaised → allowed error)
    (h : s.Moves hooks moments s') (hs : s.Tidy allowed)
    (hfails : (Native.system hooks).FailsAs allowed s.machine) :
    s'.Tidy allowed ∧ s.machine.Exchanges moments s'.machine := by
  have hbegin {m : Machine Native} {e : Execution Native Traversal σ}
      (he : e.TidyFrom allowed m) :
      Stage.Tidy allowed (.busy e) ∧ m.Exchanges ([] : List (Moment σ)) e.machine :=
    ⟨he.toTidy, he.retains.exchanges rfl rfl⟩
  cases h with
  | @drop m message rest hinbound hlistener =>
    exact ⟨⟨hs.fits, hs.fault⟩, rfl, rfl, hinbound, (List.append_nil _).symm, fun _ hf => hf⟩
  | @hear m m' message rest listener arguments w hinbound hlistener hpresent =>
    have hm' : m' = ((m.leaveMessages rest).present message).1 := by rw [hpresent]
    have htake : m.Exchanges [Moment.takes (σ := σ) message (some listener),
        .hears m' listener arguments] m' := by
      subst hm'
      exact ⟨rfl, rfl, hinbound, (List.append_nil _).symm, fun _ hf => hf⟩
    have htidy : m'.Tidy allowed := by
      subst hm'
      exact ⟨hs.fits, hs.fault⟩
    obtain ⟨he, hstart⟩ :=
      hbegin (Execution.tidyFrom_startCall (w := w) hallowed htidy listener arguments)
    exact ⟨he, htake.append hstart⟩
  | body m w => exact hbegin (Execution.tidyFrom_startScript hallowed hs)
  | call m w name => exact hbegin (Execution.tidyFrom_startCall hallowed hs _ _)
  | step e => exact Execution.exchanges_step hallowed hs hfails
  | leave m w activation result => exact ⟨hs.machine, Machine.Retains.refl.exchanges rfl rfl⟩
  | heard m w activation result => exact ⟨hs.machine, Machine.Retains.refl.exchanges rfl rfl⟩

/-- What is exchanged on a path. -/
theorem Path.exchanges (hallowed : ∀ error : RuntimeError, ¬error.IsRaised → allowed error)
    (h : s.Path hooks moments t) (hs : s.Tidy allowed)
    (hfails : (Native.system hooks).FailsAs allowed s.machine) :
    t.Tidy allowed ∧ s.machine.Exchanges moments t.machine := by
  induction h with
  | nil s => exact ⟨hs, Machine.Retains.refl.exchanges rfl rfl⟩
  | cons hmove _ ih =>
    obtain ⟨hs', hfirst⟩ := hmove.exchanges hallowed hs hfails
    obtain ⟨ht, hrest⟩ := ih hs' (hfails.congr hfirst.natives)
    exact ⟨ht, hfirst.append hrest⟩

end Stage

end Swarm
