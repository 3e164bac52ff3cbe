import Swarm.Proofs.Balance

/-!
# Calls that native functions make

A call that a native function makes runs above the native function, which waits, as
it would run alone. What is known about calls of an idle machine therefore holds of
these calls too: one that succeeds restores frames, stack and position. However many
calls a native function has made, and whatever has been executed in them, it finds
its own arguments.
-/

namespace Swarm

namespace Execution

variable {ν κ σ : Type} {sys : NativeSystem ν κ σ} {m : Machine ν} {w : World σ}
  {waiting below : List (Suspended κ)} {start e e' : Execution ν κ σ} {s : Suspended κ}

/-- The execution while more native functions wait below it. -/
def above (e : Execution ν κ σ) (below : List (Suspended κ)) : Execution ν κ σ :=
  { e with waiting := e.waiting ++ below }

/-- A call may begin above native functions that wait. -/
theorem startCall_above (callee : Value) (arguments : List Value) :
    (startCall m w waiting callee arguments).above below =
      startCall m w (waiting ++ below) callee arguments := by
  unfold startCall
  dsimp only
  split
  · split <;> rfl
  · rfl

/-- The beginning of a call leaves the native functions that wait. -/
theorem waiting_startCall (callee : Value) (arguments : List Value) :
    (startCall m w waiting callee arguments).waiting = waiting := by
  unfold startCall
  dsimp only
  split
  · split <;> rfl
  · rfl

/-- The move of a native function may be followed above others that wait. -/
theorem follow_above (activation : Activation) (origin : Option Nat) (move : Move κ) :
    (follow m w activation waiting origin move).above below =
      follow m w activation (waiting ++ below) origin move := by
  match move with
  | .finish (.ok v) =>
    simp only [follow]
    split <;> rfl
  | .finish (.error error) => rfl
  | .call callee arguments rest => exact startCall_above callee arguments
  | .runScript rest =>
    simp only [follow, startScript]
    split <;> rfl

/-- An instruction may be carried out above native functions that wait. -/
theorem advance_above (activation : Activation) :
    (advance m w activation waiting : Execution ν κ σ).above below =
      advance m w activation (waiting ++ below) := by
  unfold advance
  dsimp only
  split <;> rfl

/-- An activation may be left above native functions that wait. -/
theorem close_above (activation : Activation) :
    (close m w activation waiting : Execution ν κ σ).above below =
      close m w activation (waiting ++ below) := by
  unfold close
  split
  · rfl
  · split <;> rfl

/-- Until it is over, an execution does not notice what waits below it. -/
theorem step_above (hgoes : ∀ result, e.phase = .leaving result → e.waiting ≠ []) :
    (e.above below).step sys = (e.step sys).above below := by
  match e with
  | ⟨m, w, activation, .running, waiting⟩ =>
    simp only [above, step]
    split
    · exact (advance_above activation).symm
    · exact (close_above activation).symm
  | ⟨m, w, activation, .entering native origin, waiting⟩ => exact (follow_above ..).symm
  | ⟨m, w, _, .leaving result, s :: waiting⟩ => exact (follow_above ..).symm
  | ⟨m, w, activation, .leaving result, []⟩ => exact absurd rfl (hgoes result rfl)

/-- Executions go on as they do when there are native functions waiting below. -/
theorem Passes.above (h : e.Passes sys e') (below : List (Suspended κ)) :
    (e.above below).Passes sys (e'.above below) := by
  induction h with
  | refl => exact .refl
  | @step e' h ih =>
    by_cases hgoes : ∀ result, e'.phase = .leaving result → e'.waiting ≠ []
    · rw [← step_above hgoes]
      exact .step ih
    · push Not at hgoes
      obtain ⟨result, hphase, hwaiting⟩ := hgoes
      obtain ⟨m, w, activation, phase, waiting⟩ := e'
      subst hphase hwaiting
      exact ih

/-- What runs to an end from a later step does so from an earlier one. -/
theorem Passes.exists_run (h : e.Passes sys e') {fuel : Nat} {ending : Ending ν σ Value}
    (hrun : e'.run sys fuel = some ending) : ∃ fuel, e.run sys fuel = some ending := by
  induction h generalizing fuel with
  | refl => exact ⟨fuel, hrun⟩
  | step _ ih => exact ih (run_succ_of_step hrun)

/-- The native functions that wait even after the next step. -/
def callers (e : Execution ν κ σ) : List (Suspended κ) :=
  match e.phase with
  | .leaving _ => e.waiting.tail
  | _ => e.waiting

/-- One of the native functions below made the call in which the execution is. -/
def CalledFrom (sys : NativeSystem ν κ σ) (start : Execution ν κ σ) (s : Suspended κ)
    (below : List (Suspended κ)) (e : Execution ν κ σ) : Prop :=
  ∃ e₀ reply callee arguments inner, start.Passes sys e₀ ∧ e₀.reply? sys = some reply ∧
    reply.move = .call callee arguments s.rest ∧
    e₀.step sys = (startCall { e₀.machine with store := reply.store } reply.world [] callee
      arguments).above (s :: below) ∧
    (startCall { e₀.machine with store := reply.store } reply.world [] callee
      arguments).Passes sys inner ∧ e = inner.above (s :: below)

/-- A native function that does not run a script goes on by itself, or it waits for a call that is
begun as from outside. -/
theorem waiting_follow {move : Move κ} (hmove : ∀ rest, move ≠ .runScript rest)
    (activation : Activation) (origin : Option Nat) :
    (follow m w activation waiting origin move).waiting = waiting ∨
      ∃ (s : Suspended κ) (callee : Value) (arguments : List Value),
        move = .call callee arguments s.rest ∧ follow m w activation waiting origin move =
          (startCall m w [] callee arguments).above (s :: waiting) := by
  match move with
  | .finish (.ok v) =>
    simp only [follow]
    split <;> exact .inl rfl
  | .finish (.error error) => exact .inl rfl
  | .call callee arguments rest =>
    refine .inr ⟨⟨activation, origin, rest⟩, callee, arguments, rfl, ?_⟩
    rw [startCall_above]
    rfl
  | .runScript rest => exact absurd rfl (hmove rest)

/-- A step adds no native function that waits except for one that makes a call. -/
theorem waiting_step (hsys : sys.Forwards) (e : Execution ν κ σ) :
    (e.step sys).waiting = e.callers ∨ ∃ s reply callee arguments, e.reply? sys = some reply ∧
      reply.move = .call callee arguments s.rest ∧
      e.step sys = (startCall { e.machine with store := reply.store } reply.world [] callee
        arguments).above (s :: e.callers) := by
  match e with
  | ⟨m, w, activation, .running, waiting⟩ =>
    left
    simp only [step]
    split
    · unfold advance
      dsimp only
      split <;> rfl
    · unfold close
      split
      · rfl
      · split <;> rfl
  | ⟨m, w, activation, .entering native origin, waiting⟩ =>
    refine (waiting_follow (hsys.enter native m w) activation origin).imp_right ?_
    rintro ⟨s, callee, arguments, hmove, hstep⟩
    exact ⟨s, _, callee, arguments, rfl, hmove, hstep⟩
  | ⟨m, w, _, .leaving result, ⟨activation, origin, rest⟩ :: waiting⟩ =>
    refine (waiting_follow (hsys.resume rest result m w) activation origin).imp_right ?_
    rintro ⟨s, callee, arguments, hmove, hstep⟩
    exact ⟨s, _, callee, arguments, rfl, hmove, hstep⟩
  | ⟨m, w, activation, .leaving result, []⟩ => exact .inl rfl

/-- Those that wait after the next step wait already. -/
theorem exists_waiting_eq (e : Execution ν κ σ) : ∃ up, e.waiting = up ++ e.callers := by
  unfold callers
  split
  · cases e.waiting with
    | nil => exact ⟨[], rfl⟩
    | cons s waiting => exact ⟨[s], rfl⟩
  · exact ⟨[], rfl⟩

/-- Every native function that waits has made the call that goes on above it. -/
theorem calledFrom_passes (hsys : sys.Forwards) (hstart : start.waiting = [])
    (h : start.Passes sys e) (up : List (Suspended κ)) (hsplit : e.waiting = up ++ s :: below) :
    CalledFrom sys start s below e := by
  induction h generalizing up s below with
  | refl =>
    rw [hstart] at hsplit
    exact absurd hsplit.symm (by simp)
  | @step e hpasses ih =>
    have hkeep {up : List (Suspended κ)} {s : Suspended κ} {below : List (Suspended κ)}
        (hcallers : e.callers = up ++ s :: below) : CalledFrom sys start s below (e.step sys) := by
      obtain ⟨first, hwaiting⟩ := exists_waiting_eq e
      rw [hcallers, ← List.append_assoc] at hwaiting
      obtain ⟨e₀, reply, callee, arguments, inner, hbefore, hreply, hmove, hcall, hinner, rfl⟩ :=
        ih _ hwaiting
      refine ⟨e₀, reply, callee, arguments, inner.step sys, hbefore, hreply, hmove, hcall,
        .step hinner, step_above fun result hphase hnil => ?_⟩
      -- A call that is over has nobody waiting above its caller, who goes on in the next step.
      have hlast : (inner.above (s :: below)).callers = below := by
        unfold callers Execution.above
        rw [hphase, hnil]
        rfl
      have hlength := congrArg List.length (hlast.symm.trans hcallers)
      rw [List.length_append, List.length_cons] at hlength
      omega
    rcases waiting_step hsys e with hsame | ⟨s', reply, callee, arguments, hreply, hmove, hstep⟩
    · exact hkeep (hsame.symm.trans hsplit)
    · have hnew : (e.step sys).waiting = s' :: e.callers := by
        rw [hstep, startCall_above, waiting_startCall]
        rfl
      rw [hnew] at hsplit
      cases up with
      | nil =>
        obtain ⟨rfl, rfl⟩ := List.cons.inj hsplit
        exact ⟨e, reply, callee, arguments, _, hpasses, hreply, hmove, hstep, .refl, hstep⟩
      | cons s'' up => exact hkeep (List.cons.inj hsplit).2

/-- A value that a native function is handed is the result of the call that it has made. -/
theorem CalledFrom.exists_call {v : Value} (h : CalledFrom sys start s below e)
    (hphase : e.phase = .leaving (.ok v)) (hwaiting : e.waiting = s :: below) :
    ∃ e₀ reply callee arguments fuel, start.Passes sys e₀ ∧ e₀.Passes sys e ∧
      e₀.reply? sys = some reply ∧ reply.move = .call callee arguments s.rest ∧
      Machine.callValue sys fuel callee arguments { e₀.machine with store := reply.store }
        reply.world = some ⟨.ok v, e.machine, e.world⟩ := by
  obtain ⟨e₀, reply, callee, arguments, inner, hbefore, hreply, hmove, hcall, hinner, rfl⟩ := h
  obtain ⟨m, w, activation, phase, waiting⟩ := inner
  obtain rfl : waiting = [] := List.append_left_eq_self.mp hwaiting
  subst hphase
  obtain ⟨fuel, hrun⟩ := hinner.exists_run (run_of_left 0 (.ok v))
  have hstep : e₀.Passes sys (e₀.step sys) := .step .refl
  rw [hcall] at hstep
  exact ⟨e₀, reply, callee, arguments, fuel, hbefore, hstep.trans (hinner.above _), hreply, hmove,
    hrun⟩

/-- A call that a native function makes and that succeeds restores what the native function has
found, and then the native function goes on with its result. -/
theorem Poised.restores_call (hsys : sys.Forwards) (h : e.Poised) {reply : Reply ν κ σ}
    {callee v : Value} {arguments : List Value} {rest : κ} {fuel : Nat} {m : Machine ν}
    {w : World σ} (hreply : e.reply? sys = some reply)
    (hmove : reply.move = .call callee arguments rest)
    (hcall : Machine.callValue sys fuel callee arguments { e.machine with store := reply.store }
      reply.world = some ⟨.ok v, m, w⟩) :
    e.machine.Restores m ∧ m.isReady = true ∧ ∃ e', e.Passes sys e' ∧ e'.machine = m ∧
      e'.reply? sys = some (sys.resume rest (.ok v) m w) := by
  obtain ⟨activation, waiting, origin, hhosts, _, hstep⟩ :=
    h.exists_hosts hsys hreply fun error herror => by cases hmove.symm.trans herror
  obtain ⟨outer, f, hframes, _, hbase⟩ := hhosts.frame
  have hempty : e.machine.stack.size ≤ max 1 e.machine.stackFloor := by
    unfold Machine.stackFloor
    rw [hframes, Array.back?_push, ← hbase]
    exact Nat.le_max_right 1 f.stackBase
  obtain ⟨hrestores, hready⟩ :=
    Machine.restores_callValue (m := { e.machine with store := reply.store }) hsys hempty hcall rfl
  refine ⟨⟨hrestores.frames, hrestores.size, hrestores.pc⟩, hready, ?_⟩
  obtain ⟨inner, hpasses⟩ := passes_of_run hcall
  let s : Suspended κ := ⟨activation, origin, rest⟩
  have hfirst : e.Passes sys (e.step sys) := .step .refl
  have hpasses' := hpasses.above (s :: waiting)
  rw [startCall_above] at hpasses'
  rw [hstep, hmove] at hfirst
  exact ⟨_, hfirst.trans hpasses', rfl, rfl⟩

end Execution

/-- Calls that a native function makes one after the other, all of which succeed: from what it finds
and replies first to what it finds and replies after them. -/
inductive NativeSystem.Callbacks {ν κ σ : Type} (sys : NativeSystem ν κ σ) (m : Machine ν)
    (reply : Reply ν κ σ) : Machine ν → Reply ν κ σ → Prop where
  | none : Callbacks sys m reply m reply
  | call {m' m'' : Machine ν} {reply' : Reply ν κ σ} {callee v : Value} {arguments : List Value}
      {rest : κ} {fuel : Nat} {w : World σ} (h : Callbacks sys m reply m' reply')
      (hmove : reply'.move = .call callee arguments rest)
      (hcall : Machine.callValue sys fuel callee arguments { m' with store := reply'.store }
        reply'.world = some ⟨.ok v, m'', w⟩) :
      Callbacks sys m reply m'' (sys.resume rest (.ok v) m'' w)

/-- A native function finds everything as it was after any number of calls. -/
theorem Execution.Poised.restores_callbacks {ν κ σ : Type} {sys : NativeSystem ν κ σ}
    {e : Execution ν κ σ} (hsys : sys.Forwards) (h : e.Poised) {reply reply' : Reply ν κ σ}
    {m : Machine ν} (hreply : e.reply? sys = some reply)
    (hcalls : sys.Callbacks e.machine reply m reply') :
    e.machine.Restores m ∧
      ∃ e', e.Passes sys e' ∧ e'.machine = m ∧ e'.reply? sys = some reply' := by
  induction hcalls with
  | none => exact ⟨.refl, e, .refl, rfl, hreply⟩
  | call _ hmove hcall ih =>
    obtain ⟨hbefore, e₁, hpasses, rfl, hreply₁⟩ := ih
    obtain ⟨hrestores, _, e₂, hmore, hmachine, hreply₂⟩ :=
      (h.passes hsys hpasses).restores_call hsys hreply₁ hmove hcall
    exact ⟨hbefore.trans hrestores, e₂, hpasses.trans hmore, hmachine, hreply₂⟩

namespace Machine

variable {ν : Type} {m m' : Machine ν}

/-- Restoring leaves the local symbols. -/
theorem Restores.local?_eq (h : m.Restores m') (index : Nat) :
    m'.local? index = m.local? index := by
  unfold local?
  rw [h.frames]

/-- Restoring leaves the number of local symbols. -/
theorem Restores.localCount_eq (h : m.Restores m') : m'.localCount = m.localCount := by
  unfold localCount
  rw [h.frames]

end Machine

namespace Bridge

variable {σ : Type} {b : Bridge σ} {e : Execution Native Traversal σ}

/-- An execution that is under way has begun with no native function at work. -/
theorem Underway.exists_start (h : b.Underway e) : ∃ start : Execution Native Traversal σ,
    start.waiting = [] ∧ start.Passes (Native.system b.hooks) e ∧
      ∀ e', start.Passes (Native.system b.hooks) e' → b.Underway e' := by
  have hhearing {m : Machine Native} {w : World σ} {start : Execution Native Traversal σ}
      (hbegin : m.BeginsHearing b.hooks w start) : start.waiting = [] := by
    obtain ⟨_, _, listener, arguments, _, rfl⟩ := hbegin.exists_hears
    exact Execution.waiting_startCall listener arguments
  have hcall {m : Machine Native} {w : World σ} {name : String}
      {start : Execution Native Traversal σ} (hbegin : m.BeginsCall w name start) :
      start.waiting = [] := by
    obtain ⟨_, _, rfl⟩ := hbegin
    exact Execution.waiting_startCall _ []
  cases h with
  | @step vm i start _ hfind hready hbegin hpasses =>
    refine ⟨start, ?_, hpasses, fun _ => .step hfind hready hbegin⟩
    cases hbegin with
    | body _ =>
      unfold Execution.startScript
      split <;> rfl
    | init _ _ hbegin => exact hcall hbegin
    | hear _ _ hbegin => exact hhearing hbegin
    | step _ _ hbegin => exact hcall hbegin
  | destroy hinstances hbefore hbegin hpasses =>
    exact ⟨_, hcall hbegin, hpasses, fun _ => .destroy hinstances hbefore hbegin⟩

/-- What calls that succeed leave of their callers. -/
structure KeepsCallers (b : Bridge σ) : Prop where
  /-- A call that the host makes. -/
  entries : ∀ m w entrance fuel ending, b.Enters m w entrance → entrance ≠ .script →
    entrance.run (Native.system b.hooks) fuel m w = some ending → ending.result = .ok () →
      m.Restores ending.machine ∧ ending.machine.isReady = true
  /-- A call that a native function makes, after which the native function goes on. -/
  calls : ∀ e reply callee arguments rest fuel v m w, b.Underway e →
    e.reply? (Native.system b.hooks) = some reply → reply.move = .call callee arguments rest →
    Machine.callValue (Native.system b.hooks) fuel callee arguments
      { e.machine with store := reply.store } reply.world = some ⟨.ok v, m, w⟩ →
    e.machine.Restores m ∧ m.isReady = true ∧ ∃ e', b.Underway e' ∧
      e.Passes (Native.system b.hooks) e' ∧ e'.machine = m ∧
      e'.reply? (Native.system b.hooks) = some ((Native.system b.hooks).resume rest (.ok v) m w)
  /-- Native functions are handed the results of such calls and no other values. -/
  results : ∀ e s below v, b.Underway e → e.phase = .leaving (.ok v) → e.waiting = s :: below →
    ∃ e₀ reply callee arguments fuel, b.Underway e₀ ∧ e₀.Passes (Native.system b.hooks) e ∧
      e₀.reply? (Native.system b.hooks) = some reply ∧
      reply.move = .call callee arguments s.rest ∧
      Machine.callValue (Native.system b.hooks) fuel callee arguments
        { e₀.machine with store := reply.store } reply.world = some ⟨.ok v, e.machine, e.world⟩
  /-- However many calls it has made, a native function finds its arguments. -/
  arguments : ∀ e reply m reply', b.Underway e → e.reply? (Native.system b.hooks) = some reply →
    (Native.system b.hooks).Callbacks e.machine reply m reply' →
    e.machine.Restores m ∧ m.localCount = e.machine.localCount ∧
      (∀ index, m.local? index = e.machine.local? index) ∧
      ∃ e', b.Underway e' ∧ e.Passes (Native.system b.hooks) e' ∧ e'.machine = m ∧
        e'.reply? (Native.system b.hooks) = some reply'

/-- Whatever is executed in a call, if the call succeeds its caller finds frames, stack and position
as they were. -/
theorem Reachable.keepsCallers (h : b.Reachable) : b.KeepsCallers := by
  have hsys := Native.system_forwards b.hooks
  have hpoised {e : Execution Native Traversal σ} (he : b.Underway e) : e.Poised := by
    have hbounded : e.Bounded := (h.reached_underway he).bounded
    exact hbounded.poised
  have hpasses {e e' : Execution Native Traversal σ} (he : b.Underway e)
      (hpasses : e.Passes (Native.system b.hooks) e') : b.Underway e' := by
    obtain ⟨_, _, hbefore, hunderway⟩ := he.exists_start
    exact hunderway e' (hbefore.trans hpasses)
  refine ⟨fun m w entrance fuel ending henters hcall => henters.restores h hcall,
    fun e reply callee arguments rest fuel v m w he hreply hmove hcall => ?_,
    fun e s below v he hphase hwaiting => ?_, fun e reply m reply' he hreply hcalls => ?_⟩
  · obtain ⟨hrestores, hready, e', hafter, hgoes⟩ :=
      (hpoised he).restores_call hsys hreply hmove hcall
    exact ⟨hrestores, hready, e', hpasses he hafter, hafter, hgoes⟩
  · obtain ⟨start, hstart, hbefore, hunderway⟩ := he.exists_start
    obtain ⟨e₀, reply, callee, arguments, fuel, hfirst, hcall⟩ :=
      (Execution.calledFrom_passes hsys hstart hbefore [] hwaiting).exists_call hphase hwaiting
    exact ⟨e₀, reply, callee, arguments, fuel, hunderway e₀ hfirst, hcall⟩
  · obtain ⟨hrestores, e', hafter, hgoes⟩ := (hpoised he).restores_callbacks hsys hreply hcalls
    exact ⟨hrestores, hrestores.localCount_eq, hrestores.local?_eq, e', hpasses he hafter, hafter,
      hgoes⟩

end Bridge

/-- A script that lets a function of its own visit a table with one row, and a debug-symbol table
without entries. -/
def Files.walking : Files := fun path =>
  if path = "script" then
    .ok [0x48, 0x49, 0x56, 0x45, 1, 1, 0, 7, 0, 0x66, 0x6f, 0x72, 0x65, 0x61, 0x63, 0x68, 26, 0, 0,
      0, 12, 0, 0, 7, 8, 3, 1, 0, 0, 0, 3, 1, 0, 0, 0, 10, 6, 25, 0, 0, 0, 16, 2, 0, 0, 17]
  else .ok [0x48, 0x44, 0x42, 0x47, 0, 0]

namespace Bridge

/-- A bridge into which the script has been loaded. -/
def walking : Bridge Unit :=
  let b : Bridge Unit := .new 1 0 {} ()
  b.attempt ((b.load Files.walking "script" "symbols" 7).map Prod.fst)

/-- The bridge is reachable. -/
theorem reachable_walking : walking.Reachable := by
  have hnew : (Bridge.new 1 0 {} () : Bridge Unit).Reachable := .new 1 0 {} ()
  have hload : (Operation.load Files.walking "script" "symbols" 7).after 0
      (.new 1 0 {} ()) = some walking := rfl
  exact hnew.after hload

/-- The first call of a native function succeeds. -/
def callSucceeds (b : Bridge Unit) (fuel : Nat) (e : Execution Native Traversal Unit) : Bool :=
  (e.reply? (Native.system b.hooks)).any fun reply =>
    match reply.move with
    | .call callee arguments _ =>
      (Machine.callValue (Native.system b.hooks) fuel callee arguments
        { e.machine with store := reply.store } reply.world).any (·.result.isOk)
    | _ => false

/-- After a visit of a row `foreach` still finds the table and the visitor. -/
theorem keepsCallers_walking : walking.KeepsCallers ∧ ∃ e reply m reply', walking.Underway e ∧
    e.reply? (Native.system walking.hooks) = some reply ∧
    (Native.system walking.hooks).Callbacks e.machine reply m reply' ∧
    e.machine.localCount = 3 ∧ m.localCount = 3 ∧
    ∀ index, m.local? index = e.machine.local? index := by
  have hkeeps := Reachable.keepsCallers reachable_walking
  have hcheck : (walking.bodyAt? 8).any (fun e =>
      walking.callSucceeds 9 e && decide (e.machine.localCount = 3)) = true := by decide +kernel
  obtain ⟨e, he, hat⟩ := (Option.any_eq_true _ _).mp hcheck
  obtain ⟨hsucceeds, hcount⟩ := (Bool.and_eq_true _ _).mp hat
  obtain ⟨reply, hreply, hcall⟩ := (Option.any_eq_true _ _).mp hsucceeds
  split at hcall
  · rename_i callee arguments rest hmove
    obtain ⟨⟨result, m, w⟩, hending, hok⟩ := (Option.any_eq_true _ _).mp hcall
    cases result with
    | error error => cases hok
    | ok v =>
      have hcalls : (Native.system walking.hooks).Callbacks e.machine reply m _ :=
        .call .none hmove hending
      obtain ⟨_, hsame, hlocals, _⟩ :=
        hkeeps.arguments e reply m _ (underway_of_bodyAt? he) hreply hcalls
      have hthree := of_decide_eq_true hcount
      exact ⟨hkeeps, e, reply, m, _, underway_of_bodyAt? he, hreply, hcalls, hthree,
        hsame.trans hthree, hlocals⟩
  · cases hcall

end Bridge

end Swarm
