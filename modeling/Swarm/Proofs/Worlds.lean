import Swarm.Bridge.Step
import Swarm.Proofs.Work

/-!
# What a machine cannot hear of the world

A machine reports to the world around it and prints into it, but the only thing
that it ever hears of it are the answers of host functions. If those depend on the
call alone, whatever a machine does is the same in every world: every step of it,
every entry into it and every turn of its script.
-/

namespace Swarm

variable {ν κ σ α β : Type}

/-- Answers that look the same are both missing or both there. -/
theorem rel_of_map_eq {first second : Option α} {f : α → β} (h : first.map f = second.map f) :
    Option.Rel (fun a a' => f a = f a') first second := by
  cases first with
  | none =>
    cases second with
    | none => exact .none
    | some _ => cases h
  | some _ =>
    cases second with
    | none => cases h
    | some _ => exact .some (Option.some.inj h)

/-- A host function that answers by the call alone, whatever it does to the world. -/
def HostFunction.Stateless (f : HostFunction σ) : Prop := ∀ call w w', (f call w).1 = (f call w').1

/-- All functions that are bound answer by the call alone. -/
def HookTable.Stateless (t : HookTable σ) : Prop :=
  ∀ slot hook, t.slot? slot = some hook → HostFunction.Stateless hook.function

/-- What a native function asks for and the store after it. -/
def Reply.inner (r : Reply ν κ σ) : Move κ × Store ν := (r.move, r.store)

/-- No native function hears of the world. -/
structure NativeSystem.Deaf (sys : NativeSystem ν κ σ) : Prop where
  enter : ∀ native m w w', (sys.enter native m w).inner = (sys.enter native m w').inner
  resume : ∀ rest result m w w',
    (sys.resume rest result m w).inner = (sys.resume rest result m w').inner

/-- What comes of a hook is the same in every world, apart from the world after it. -/
theorem HookTable.Stateless.dispatch {t : HookTable σ} (h : t.Stateless) (slot : Nat)
    (owner : Handle) (m : Machine ν) (w w' : World σ) :
    (t.dispatch slot owner m w).1 = (t.dispatch slot owner m w').1 ∧
      (t.dispatch slot owner m w).2.1 = (t.dispatch slot owner m w').2.1 := by
  unfold HookTable.dispatch
  cases hslot : t.slot? slot with
  | none => exact ⟨rfl, rfl⟩
  | some hook =>
    have hanswer := h slot hook hslot ⟨some owner, m.arguments.map m.store.toHost⟩ w w'
    dsimp only
    generalize hook.function ⟨some owner, m.arguments.map m.store.toHost⟩ w = first at hanswer ⊢
    generalize hook.function ⟨some owner, m.arguments.map m.store.toHost⟩ w' = second at hanswer ⊢
    obtain ⟨result, w₁⟩ := first
    obtain ⟨result', w₂⟩ := second
    cases hanswer
    cases result <;> exact ⟨rfl, rfl⟩

/-- The native functions of a loaded script hear of the world only through the slots. -/
theorem Native.deaf_system {hooks : HookTable σ} (h : hooks.Stateless) :
    (Native.system hooks).Deaf where
  enter native m w w' := by
    cases native with
    | builtin b => rfl
    | print => rfl
    | hook slot owner =>
      obtain ⟨hresult, hstore⟩ := h.dispatch slot owner m w w'
      change (Move.finish (hooks.dispatch slot owner m w).1, (hooks.dispatch slot owner m w).2.1) =
        (Move.finish (hooks.dispatch slot owner m w').1, (hooks.dispatch slot owner m w').2.1)
      rw [hresult, hstore]
  resume _ _ _ _ _ := rfl

/-- The end of an entry without the world around it. -/
def Ending.inner (e : Ending ν σ α) : Except RuntimeError α × Machine ν := (e.result, e.machine)

namespace Execution

variable {m : Machine ν} {w w' : World σ} {activation : Activation} {waiting : List (Suspended κ)}
  {e e' : Execution ν κ σ} {sys : NativeSystem ν κ σ}

/-- An execution without the world around it. -/
def inner (e : Execution ν κ σ) : Machine ν × Activation × Phase ν × List (Suspended κ) :=
  (e.machine, e.activation, e.phase, e.waiting)

/-- The beginning of a call does not depend on the world. -/
theorem inner_startCall (callee : Value) (arguments : List Value) :
    (startCall m w waiting callee arguments).inner =
      (startCall m w' waiting callee arguments).inner := by
  unfold startCall
  dsimp only
  split
  · split <;> rfl
  · rfl

/-- Nor does the beginning of the body. -/
theorem inner_startScript : (startScript m w waiting).inner = (startScript m w' waiting).inner := by
  unfold startScript
  dsimp only
  split <;> rfl

/-- What follows a native function's move does not depend on the world. -/
theorem inner_follow (origin : Option Nat) (move : Move κ) :
    (follow m w activation waiting origin move).inner =
      (follow m w' activation waiting origin move).inner := by
  cases move with
  | finish result =>
    cases result with
    | ok value =>
      unfold follow
      dsimp only
      split <;> rfl
    | error error => rfl
  | call callee arguments rest => exact inner_startCall callee arguments
  | runScript rest => exact inner_startScript

/-- Leaving an activation does not depend on the world. -/
theorem inner_close :
    (close m w activation waiting).inner = (close m w' activation waiting).inner := by
  unfold close
  split
  · rfl
  · split <;> rfl

/-- Carrying out an instruction does not depend on the world. -/
theorem inner_advance :
    (advance m w activation waiting).inner = (advance m w' activation waiting).inner := by
  unfold advance
  dsimp only
  split <;> rfl

/-- A step is the same in every world, apart from the world after it. -/
theorem inner_step (hsys : sys.Deaf) (h : e.inner = e'.inner) :
    (e.step sys).inner = (e'.step sys).inner := by
  obtain ⟨m, w, activation, phase, waiting⟩ := e
  obtain ⟨m', w', activation', phase', waiting'⟩ := e'
  cases h
  cases phase with
  | running =>
    change (if activation.stop < m.frames.size then advance m w activation waiting
        else close m w activation waiting).inner =
      (if activation.stop < m.frames.size then advance m w' activation waiting
        else close m w' activation waiting).inner
    split
    · exact inner_advance
    · exact inner_close
  | entering native origin =>
    have hreply := hsys.enter native m w w'
    have hmove := congrArg Prod.fst hreply
    have hstore := congrArg Prod.snd hreply
    dsimp only [Reply.inner] at hmove hstore
    unfold step
    dsimp only
    rw [hmove, hstore]
    exact inner_follow origin _
  | leaving result =>
    cases waiting with
    | nil => rfl
    | cons suspended waiting =>
      have hreply := hsys.resume suspended.rest result m w w'
      have hmove := congrArg Prod.fst hreply
      have hstore := congrArg Prod.snd hreply
      dsimp only [Reply.inner] at hmove hstore
      unfold step
      dsimp only
      rw [hmove, hstore]
      exact inner_follow suspended.origin _

/-- A run is the same in every world, apart from the world at its end. -/
theorem inner_run (hsys : sys.Deaf) (fuel : Nat) (h : e.inner = e'.inner) :
    (e.run sys fuel).map Ending.inner = (e'.run sys fuel).map Ending.inner := by
  induction fuel generalizing e e' with
  | zero =>
    obtain ⟨m, w, activation, phase, waiting⟩ := e
    obtain ⟨m', w', activation', phase', waiting'⟩ := e'
    cases h
    cases phase with
    | running | entering => rfl
    | leaving result => cases waiting <;> rfl
  | succ fuel ih =>
    have hrest := ih (inner_step hsys h)
    obtain ⟨m, w, activation, phase, waiting⟩ := e
    obtain ⟨m', w', activation', phase', waiting'⟩ := e'
    cases h
    cases phase with
    | running | entering => exact hrest
    | leaving result =>
      cases waiting with
      | nil => rfl
      | cons => exact hrest

end Execution

section Entries

variable {m : Machine ν} {w w' : World σ} {sys : NativeSystem ν κ σ} {fuel : Nat}

/-- Which message of a store is heard next is the same in every world. -/
theorem Store.exists_nextDelivery (contextId : UInt16) (s : Store ν) (w w' : World σ) :
    ∃ delivery s₁ w₁ w₁', s.nextDelivery contextId w = (delivery, s₁, w₁) ∧
      s.nextDelivery contextId w' = (delivery, s₁, w₁') := by
  fun_induction Store.nextDelivery contextId s w generalizing w' with
  | case1 s w mailbox hnone =>
    rw [nextDelivery_of_none hnone]
    exact ⟨_, _, _, _, rfl, rfl⟩
  | case2 s w message mailbox htake t hlistener ih =>
    rw [nextDelivery_of_unheard htake hlistener]
    exact ih _
  | case3 s w message mailbox htake t listener hlistener _ _ hintern =>
    rw [nextDelivery_of_heard htake hlistener, hintern]
    exact ⟨_, _, _, _, rfl, rfl⟩

namespace Machine

/-- A call from outside is the same in every world. -/
theorem inner_callValue (hsys : sys.Deaf) (callee : Value) (arguments : List Value) :
    (m.callValue sys fuel callee arguments w).map Ending.inner =
      (m.callValue sys fuel callee arguments w').map Ending.inner :=
  Execution.inner_run hsys fuel (Execution.inner_startCall callee arguments)

/-- The body runs the same in every world. -/
theorem inner_executeScript (hsys : sys.Deaf) :
    (m.executeScript sys fuel w).map Ending.inner =
      (m.executeScript sys fuel w').map Ending.inner := by
  have hrun : ((Execution.startScript m w []).run sys fuel).map Ending.inner =
      ((Execution.startScript m w' []).run sys fuel).map Ending.inner :=
    Execution.inner_run hsys fuel Execution.inner_startScript
  have hmap := congrArg (Option.map fun (result, m) => (result.map fun _ => (), m)) hrun
  simp only [Option.map_map] at hmap
  unfold executeScript
  simp only [Option.map_map]
  exact hmap

/-- A call of a global function is the same in every world. -/
theorem inner_callGlobal (hsys : sys.Deaf) (name : String) (arguments : List Value) :
    (m.callGlobal sys fuel name arguments w).map Ending.inner =
      (m.callGlobal sys fuel name arguments w').map Ending.inner := by
  unfold callGlobal
  split
  · dsimp only
    split
    · rfl
    · exact inner_callValue hsys _ _
  · rfl

/-- Which message is heard next is the same in every world. -/
theorem exists_nextDelivery (m : Machine ν) (w w' : World σ) : ∃ delivery m₁ w₁ w₁',
    m.nextDelivery w = (delivery, m₁, w₁) ∧ m.nextDelivery w' = (delivery, m₁, w₁') := by
  obtain ⟨delivery, s, w₁, w₁', hnext, hnext'⟩ :=
    m.store.exists_nextDelivery m.contextId w w'
  unfold nextDelivery
  rw [hnext, hnext']
  exact ⟨_, _, _, _, rfl, rfl⟩

/-- Messages are heard the same in every world. -/
theorem inner_hearMessages (hsys : sys.Deaf) (heard rounds : Nat) :
    (m.hearMessages sys fuel w heard rounds).map Ending.inner =
      (m.hearMessages sys fuel w' heard rounds).map Ending.inner := by
  induction rounds generalizing m w w' heard with
  | zero => rfl
  | succ rounds ih =>
    obtain ⟨delivery, m₁, w₁, w₁', hnext, hnext'⟩ := m.exists_nextDelivery w w'
    unfold hearMessages
    rw [hnext, hnext']
    cases delivery with
    | none => rfl
    | some delivery =>
      obtain ⟨listener, arguments⟩ := delivery
      have hcall : (m₁.callValue sys fuel listener arguments w₁).map Ending.inner =
          (m₁.callValue sys fuel listener arguments w₁').map Ending.inner :=
        inner_callValue hsys listener arguments
      dsimp only
      generalize m₁.callValue sys fuel listener arguments w₁ = first at hcall ⊢
      generalize m₁.callValue sys fuel listener arguments w₁' = second at hcall ⊢
      cases rel_of_map_eq hcall with
      | none => rfl
      | @some ending ending' hending =>
        obtain ⟨result, m₂, w₂⟩ := ending
        obtain ⟨result', m₂', w₂'⟩ := ending'
        cases hending
        cases result with
        | error error => rfl
        | ok value => exact ih _

/-- The messages that wait are heard the same in every world. -/
theorem inner_processInbound (hsys : sys.Deaf) :
    (m.processInbound sys fuel w).map Ending.inner =
      (m.processInbound sys fuel w').map Ending.inner := by
  unfold processInbound
  split
  · exact inner_hearMessages hsys 0 fuel
  · rfl

end Machine

end Entries

namespace Turn

variable {work : Turn σ α} {next : α → Turn σ β}

/-- What work on a script came to and the script after it, without the world around it. -/
def inner (answer : α × Instance × World σ) : α × Instance := (answer.1, answer.2.1)

/-- What the work makes of a script is the same in every world. -/
def Deaf (work : Turn σ α) : Prop := ∀ i w w', (work (i, w)).map inner = (work (i, w')).map inner

/-- Work that does not hear of the world may be followed by more such work. -/
theorem Deaf.bind (h : Deaf work) (hnext : ∀ a, Deaf (next a)) : Deaf (work >>= next) := by
  intro i w w'
  have hwork := h i w w'
  rw [Work.bind_eq, Work.bind_eq]
  generalize work (i, w) = first at hwork ⊢
  generalize work (i, w') = second at hwork ⊢
  cases rel_of_map_eq hwork with
  | none => rfl
  | @some answer answer' hanswer =>
    obtain ⟨result, i₁, w₁⟩ := answer
    obtain ⟨result', i₁', w₁'⟩ := answer'
    cases hanswer
    cases result with
    | error error => rfl
    | ok a => exact hnext a i₁ w₁ w₁'

/-- A change of the script does not hear of the world. -/
theorem deaf_update (f : Instance → Instance) : Deaf (update (σ := σ) f) := fun _ _ _ => rfl

/-- A report does not hear of the world. -/
theorem deaf_report (text : Instance → String) : Deaf (report (σ := σ) text) := fun _ _ _ => rfl

/-- Releasing strings does not hear of the world. -/
theorem deaf_releaseStrings : Deaf (releaseStrings (σ := σ)) := fun _ _ _ => rfl

/-- An entry that is the same in every world does not hear of it. -/
theorem deaf_enter {f : Machine Native → World σ → Option (Ending Native σ α)}
    (hf : ∀ m w w', (f m w).map Ending.inner = (f m w').map Ending.inner) : Deaf (enter f) := by
  intro i w w'
  have hmap := congrArg (Option.map fun (result, machine) => (result, { i with machine }))
    (hf i.machine w w')
  simp only [Option.map_map] at hmap
  unfold enter
  simp only [Option.map_map]
  exact hmap

end Turn

namespace Instance

variable {hooks : HookTable σ} {fuel : Nat}

/-- The first part of a turn does not hear of the world. -/
theorem deaf_begin (h : hooks.Stateless) : Turn.Deaf (begin hooks fuel) := by
  have hsys := Native.deaf_system h
  refine (Turn.deaf_update _).bind fun _ => ?_
  refine (Turn.deaf_enter fun m w w' => m.inner_executeScript hsys).bind fun _ => ?_
  refine (Turn.deaf_enter fun m w w' => m.inner_callGlobal hsys "init" []).bind fun _ => ?_
  exact (Turn.deaf_update _).bind fun _ => Turn.deaf_report _

/-- A turn does not hear of the world. -/
theorem deaf_turn (h : hooks.Stateless) : Turn.Deaf (turn hooks fuel) := by
  have hsys := Native.deaf_system h
  let rest : Turn σ Unit := do
    let _ ← Turn.enter (Machine.processInbound (Native.system hooks) fuel)
    let _ ← Turn.enter (Machine.callGlobal (Native.system hooks) fuel "step" [])
    Turn.releaseStrings
  have hrest : Turn.Deaf rest := by
    refine (Turn.deaf_enter fun m w w' => m.inner_processInbound hsys).bind fun _ => ?_
    refine (Turn.deaf_enter fun m w w' => m.inner_callGlobal hsys "step" []).bind fun _ => ?_
    exact Turn.deaf_releaseStrings
  intro i w w'
  cases hstepped : i.stepped with
  | true =>
    have hturn (w : World σ) : turn hooks fuel (i, w) = rest (i, w) := by
      change (if !i.stepped then begin hooks fuel >>= fun _ => rest else rest) (i, w) = _
      rw [hstepped]
      rfl
    rw [hturn, hturn]
    exact hrest i w w'
  | false =>
    have hturn (w : World σ) : turn hooks fuel (i, w) =
        (begin hooks fuel >>= fun _ => rest) (i, w) := by
      change (if !i.stepped then begin hooks fuel >>= fun _ => rest else rest) (i, w) = _
      rw [hstepped]
      rfl
    rw [hturn, hturn]
    exact ((deaf_begin h).bind fun _ => hrest) i w w'

/-- What a step makes of a script is the same in every world. -/
theorem deaf_step (i : Instance) (h : hooks.Stateless) (w w' : World σ) :
    (i.step hooks fuel w).map Turn.inner = (i.step hooks fuel w').map Turn.inner := by
  have hturn : (turn hooks fuel (i, w)).map Turn.inner = (turn hooks fuel (i, w')).map Turn.inner :=
    deaf_turn h i w w'
  unfold step
  split
  · generalize turn hooks fuel (i, w) = first at hturn ⊢
    generalize turn hooks fuel (i, w') = second at hturn ⊢
    cases rel_of_map_eq hturn with
    | none => rfl
    | @some answer answer' hanswer =>
      obtain ⟨result, i₁, w₁⟩ := answer
      obtain ⟨result', i₁', w₁'⟩ := answer'
      cases hanswer
      cases result <;> rfl
  · rfl

end Instance

end Swarm
