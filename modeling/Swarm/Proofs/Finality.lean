import Swarm.Proofs.Faults
import Swarm.Proofs.Orderly

/-!
# Faults are final unless a native function swallows one

Once a fault has been recorded it never changes and every way into the machine is
refused. The activations that are in progress at that moment are left one after the
other with errors, and no instruction is carried out any more, exactly if no native
function goes on with a value although the machine has faulted. The run of
instructions below such a native function has no test for the fault: it goes on.
-/

namespace Swarm

variable {ν κ σ : Type} {sys : NativeSystem ν κ σ}

/-- The same move, with something else left to do. -/
def Move.map {κ' : Type} (f : κ → κ') : Move κ → Move κ'
  | .finish result => .finish result
  | .call callee arguments rest => .call callee arguments (f rest)
  | .runScript rest => .runScript (f rest)

namespace Execution

variable {m : Machine ν} {w : World σ} {activation : Activation} {waiting : List (Suspended κ)}
  {e e' : Execution ν κ σ}

/-- What a native function replies in the next step. -/
def reply? (sys : NativeSystem ν κ σ) (e : Execution ν κ σ) : Option (Reply ν κ σ) :=
  match e.phase, e.waiting with
  | .entering native _, _ => some (sys.enter native e.machine e.world)
  | .leaving result, s :: _ => some (sys.resume s.rest result e.machine e.world)
  | _, _ => none

/-- In the next step a native function ends with a value, and returns it, on a machine that has
faulted. -/
def Swallows (sys : NativeSystem ν κ σ) (e : Execution ν κ σ) : Prop :=
  e.machine.isReady = false ∧ ∃ reply value m', e.reply? sys = some reply ∧
    reply.move = .finish (.ok value) ∧
    Machine.ret value { e.machine with store := reply.store } = .ok () m'

/-- If the machine has faulted, an activation is being left with an error. -/
def Unwinds (e : Execution ν κ σ) : Prop :=
  e.machine.isReady = false → ∃ error, e.phase = .leaving (.error error)

instance (e : Execution ν κ σ) : Decidable e.Unwinds :=
  match h : e.phase with
  | .leaving (.error error) => isTrue fun _ => ⟨error, h⟩
  | .leaving (.ok _) | .running | .entering _ _ =>
    decidable_of_iff (e.machine.isReady = true) (by simp [Unwinds, h])

/-- Who is unwinding carries out no instruction. -/
theorem Unwinds.instruction? (h : e.Unwinds) (hm : e.machine.isReady = false) :
    e.instruction? = none := by
  obtain ⟨error, hphase⟩ := h hm
  unfold Execution.instruction?
  rw [hphase]

/-- What records a failure unwinds if the machine was ready. -/
theorem Records.unwinds {pc : Nat} (h : e.Records m pc) (hm : m.isReady = true) : e.Unwinds := by
  intro hready
  rcases h with hsame | ⟨error, hphase, _⟩
  · rw [isReady_of_fault_eq hsame hm] at hready
    cases hready
  · exact ⟨error, hphase⟩

/-- A call that begins unwinds if it fails. -/
theorem unwinds_startCall (callee : Value) (arguments : List Value) :
    (startCall m w waiting callee arguments).Unwinds := by
  by_cases hm : m.isReady = true
  · exact (records_startCall callee arguments).unwinds hm
  · unfold startCall
    rw [if_neg hm]
    exact fun _ => ⟨_, rfl⟩

/-- A body that begins unwinds if it fails. -/
theorem unwinds_startScript : (startScript m w waiting : Execution ν κ σ).Unwinds := by
  by_cases hm : m.isReady = true
  · exact (records_startScript m.pc).unwinds hm
  · unfold startScript
    rw [if_neg hm]
    exact fun _ => ⟨_, rfl⟩

/-- A native function is followed by unwinding, unless it returns a value on a faulted machine. -/
theorem unwinds_follow {origin : Option Nat} {move : Move κ}
    (h : ∀ value m', m.isReady = false → move = .finish (.ok value) →
      Machine.ret value m ≠ .ok () m') :
    (follow m w activation waiting origin move).Unwinds := by
  by_cases hm : m.isReady = true
  · exact (records_follow origin move).unwinds hm
  · match move with
    | .finish (.ok value) =>
      simp only [follow]
      split
      · rename_i heq
        exact absurd heq (h value _ (by simpa using hm) rfl)
      · exact fun _ => ⟨_, rfl⟩
    | .finish (.error error) => exact fun _ => ⟨_, rfl⟩
    | .call callee arguments rest => exact unwinds_startCall callee arguments
    | .runScript rest => exact unwinds_startScript

/-- Unwinding goes on until a native function swallows the fault. -/
theorem Unwinds.step (h : e.Unwinds) (hswallows : ¬e.Swallows sys) : (e.step sys).Unwinds := by
  by_cases hm : e.machine.isReady = true
  · exact (records_step sys e).unwinds hm
  · obtain ⟨error, hphase⟩ := h (by simpa using hm)
    match e with
    | ⟨m, w, _, .leaving result, s :: waiting⟩ =>
      refine unwinds_follow fun value m' hready hmove hret => hswallows ?_
      exact ⟨hready, _, value, m', rfl, hmove, hret⟩
    | ⟨m, w, activation, .leaving result, []⟩ => exact h

/-- After a fault has been swallowed, the execution runs on a machine that has faulted. -/
theorem Swallows.step (h : e.Swallows sys) :
    (e.step sys).machine.isReady = false ∧ (e.step sys).phase = .running := by
  obtain ⟨hready, reply, value, m', hreply, hmove, hret⟩ := h
  have hfault := Machine.spares_ret value { e.machine with store := reply.store }
  unfold Action.Ends at hfault
  rw [hret] at hfault
  have hready' : m'.isReady = false := by
    unfold Machine.isReady at hready ⊢
    rwa [hfault.fault]
  match e with
  | ⟨m, w, activation, .entering native origin, waiting⟩ =>
    cases hreply
    simp only [Execution.step, follow, hmove, hret]
    exact ⟨hready', trivial⟩
  | ⟨m, w, _, .leaving result, s :: waiting⟩ =>
    cases hreply
    simp only [Execution.step, follow, hmove, hret]
    exact ⟨hready', trivial⟩

/-- After a fault has been swallowed nothing unwinds. -/
theorem Swallows.not_unwinds (h : e.Swallows sys) : ¬(e.step sys).Unwinds := by
  intro hunwinds
  obtain ⟨error, hphase⟩ := hunwinds h.step.1
  rw [h.step.2] at hphase
  cases hphase

/-- An execution that unwinds at first unwinds throughout if no fault is swallowed. -/
theorem Unwinds.passes (h : e.Unwinds) (hswallows : ∀ e', e.Passes sys e' → ¬e'.Swallows sys)
    (hpasses : e.Passes sys e') : e'.Unwinds := by
  induction hpasses with
  | refl => exact h
  | @step e' hpasses ih => exact ih.step (hswallows e' hpasses)

/-- A native function that forwards failures swallows none. -/
theorem Unwinds.not_swallows (hsys : sys.Forwards) (h : e.Unwinds) : ¬e.Swallows sys := by
  rintro ⟨hready, reply, value, m', hreply, hmove, _⟩
  obtain ⟨error, hphase⟩ := h hready
  obtain ⟨m, w, activation, phase, waiting⟩ := e
  subst hphase
  cases waiting with
  | nil => cases hreply
  | cons s waiting =>
    cases hreply
    obtain ⟨error', hforward⟩ := hsys.error s.rest error m w
    cases hforward.symm.trans hmove

/-- Where native functions forward errors, who unwinds goes on unwinding. -/
theorem Unwinds.of_forwards (hsys : sys.Forwards) (h : e.Unwinds) (hpasses : e.Passes sys e') :
    e'.Unwinds :=
  hpasses.preserves (fun _ he => he.step (he.not_swallows hsys)) h

/-- A run that unwinds throughout ends with a value only if the machine is ready. -/
theorem isReady_of_run_ok {fuel : Nat} {ending : Ending ν σ Value} {value : Value}
    (h : ∀ e', e.Passes sys e' → e'.Unwinds) (hrun : e.run sys fuel = some ending)
    (hok : ending.result = .ok value) : ending.machine.isReady = true := by
  obtain ⟨activation, hpasses⟩ := passes_of_run hrun
  by_contra hready
  obtain ⟨error, hphase⟩ := h _ hpasses (by simpa using hready)
  rw [hok] at hphase
  cases hphase

/-- An execution that has been left ends with its result. -/
theorem run_of_left (fuel : Nat) (result : Except RuntimeError Value) :
    (⟨m, w, activation, .leaving result, []⟩ : Execution ν κ σ).run sys fuel =
      some ⟨result, m, w⟩ := by
  cases fuel <;> rfl

/-- A run that has an answer is over, or has it after the next step. -/
theorem exists_of_run {fuel : Nat} {ending : Ending ν σ Value}
    (h : e.run sys fuel = some ending) :
    (∃ activation, e = ⟨ending.machine, ending.world, activation, .leaving ending.result, []⟩) ∨
      ∃ less, fuel = less + 1 ∧ (e.step sys).run sys less = some ending := by
  unfold run at h
  split at h
  · cases h
    exact .inl ⟨_, rfl⟩
  · cases h
  · exact .inr ⟨_, rfl, h⟩

/-- A run may begin one step earlier. -/
theorem run_succ_of_step {fuel : Nat} {ending : Ending ν σ Value}
    (h : (e.step sys).run sys fuel = some ending) : e.run sys (fuel + 1) = some ending := by
  rw [run.eq_def]
  split
  · exact (run_of_left fuel _).symm.trans h
  · contradiction
  · rename_i heq _
    cases heq
    exact h

/-- An answer is the same with more fuel. -/
theorem run_succ {fuel : Nat} {ending : Ending ν σ Value} (h : e.run sys fuel = some ending) :
    e.run sys (fuel + 1) = some ending := by
  induction fuel generalizing e with
  | zero =>
    obtain ⟨activation, rfl⟩ | ⟨less, hless, _⟩ := exists_of_run h
    · exact run_of_left 1 _
    · cases hless
  | succ fuel ih =>
    obtain ⟨activation, rfl⟩ | ⟨less, hless, hstep⟩ := exists_of_run h
    · exact run_of_left _ _
    · cases hless
      exact run_succ_of_step (ih hstep)

/-- More fuel does not change how a run ends. -/
theorem run_add {fuel : Nat} {ending : Ending ν σ Value} (h : e.run sys fuel = some ending)
    (more : Nat) : e.run sys (fuel + more) = some ending := by
  induction more with
  | zero => exact h
  | succ more ih => exact run_succ ih

/-- The answer does not depend on the fuel. -/
theorem run_unique {fuel fuel' : Nat} {ending ending' : Ending ν σ Value}
    (h : e.run sys fuel = some ending) (h' : e.run sys fuel' = some ending') :
    ending = ending' := by
  have hsum := run_add h fuel'
  rw [Nat.add_comm, run_add h' fuel] at hsum
  exact (Option.some.inj hsum).symm

/-- The answer is that of every later point of the run. -/
theorem Passes.run {fuel : Nat} {ending : Ending ν σ Value} (h : e.Passes sys e')
    (hrun : e.run sys fuel = some ending) : e'.run sys fuel = some ending := by
  induction h with
  | refl => exact hrun
  | step _ ih =>
    obtain ⟨activation, rfl⟩ | ⟨less, rfl, hstep⟩ := exists_of_run ih
    · exact run_of_left fuel _
    · exact run_succ hstep

/-- A run that unwinds throughout fails if the machine has faulted anywhere in it. -/
theorem exists_error_of_run {fuel : Nat} {ending : Ending ν σ Value}
    (h : ∀ e', e.Passes sys e' → e'.Unwinds) (hpasses : e.Passes sys e')
    (hfaulted : e'.machine.isReady = false) (hrun : e.run sys fuel = some ending) :
    ∃ error, ending.result = .error error := by
  obtain ⟨f, hf⟩ : ∃ f, e'.machine.fault = some f := by
    unfold Machine.isReady at hfaulted
    exact Option.ne_none_iff_exists'.mp fun hnone => by simp [hnone] at hfaulted
  obtain ⟨activation, hlater⟩ := passes_of_run (hpasses.run hrun)
  have hending := fault_passes hlater hf
  cases hresult : ending.result with
  | error error => exact ⟨error, rfl⟩
  | ok value =>
    have hready := isReady_of_run_ok h hrun hresult
    unfold Machine.isReady at hready
    dsimp only at hending
    rw [hending] at hready
    cases hready

end Execution

namespace Machine

/-- Hearing the messages that wait begins the execution. -/
inductive Hearing (sys : NativeSystem ν κ σ) :
    Machine ν → World σ → Execution ν κ σ → Prop where
  | now {m m' : Machine ν} {w w' : World σ} {listener : Value} {arguments : List Value}
      (h : m.nextDelivery w = (some (listener, arguments), m', w')) :
      Hearing sys m w (.startCall m' w' [] listener arguments)
  | later {m m' : Machine ν} {w w' : World σ} {listener : Value} {arguments : List Value}
      {fuel : Nat} {v : Value} {m₁ : Machine ν} {w₁ : World σ} {e : Execution ν κ σ}
      (h : m.nextDelivery w = (some (listener, arguments), m', w'))
      (hcall : m'.callValue sys fuel listener arguments w' = some ⟨.ok v, m₁, w₁⟩)
      (hrest : Hearing sys m₁ w₁ e) : Hearing sys m w e

variable {m : Machine ν} {w : World σ} {fuel : Nat}

/-- Hearing messages succeeds on a machine that is ready after it. -/
theorem isReady_of_hearMessages (hm : m.isReady = true)
    (h : ∀ e e', m.Hearing sys w e → e.Passes sys e' → e'.Unwinds) {heard rounds n : Nat}
    {ending : Ending ν σ Nat} (hhear : m.hearMessages sys fuel w heard rounds = some ending)
    (hok : ending.result = .ok n) : ending.machine.isReady = true := by
  induction rounds generalizing m w heard with
  | zero => cases hhear
  | succ rounds ih =>
    unfold hearMessages at hhear
    split at hhear
    · rename_i m' w' hnext
      have hfault : m'.fault = (m.nextDelivery w).2.1.fault := by rw [hnext]
      cases hhear
      exact Execution.isReady_of_fault_eq hfault hm
    · rename_i hnext
      split at hhear
      · cases hhear
      · cases hhear
        cases hok
      · rename_i hcall
        have hready := Execution.isReady_of_run_ok (fun e' => h _ e' (.now hnext)) hcall rfl
        exact ih hready (fun e e' he => h e e' (.later hnext hcall he)) hhear

/-- Hearing messages fails if the machine faults on the way. -/
theorem exists_error_of_hearMessages {e e' : Execution ν κ σ} (he : m.Hearing sys w e)
    (h : ∀ e e', m.Hearing sys w e → e.Passes sys e' → e'.Unwinds) (hpasses : e.Passes sys e')
    (hfaulted : e'.machine.isReady = false) {heard rounds : Nat} {ending : Ending ν σ Nat}
    (hhear : m.hearMessages sys fuel w heard rounds = some ending) :
    ∃ error, ending.result = .error error := by
  induction he generalizing heard rounds with
  | now hnext =>
    cases rounds with
    | zero => cases hhear
    | succ rounds =>
      simp only [hearMessages, hnext] at hhear
      split at hhear
      · cases hhear
      · cases hhear
        exact ⟨_, rfl⟩
      · rename_i hcall
        obtain ⟨error, herror⟩ := Execution.exists_error_of_run (fun e' => h _ e' (.now hnext))
          hpasses hfaulted hcall
        cases herror
  | later hnext hcall hrest ih =>
    cases rounds with
    | zero => cases hhear
    | succ rounds =>
      simp only [hearMessages, hnext] at hhear
      split at hhear
      · cases hhear
      · cases hhear
        exact ⟨_, rfl⟩
      · rename_i hcall'
        cases Execution.run_unique hcall hcall'
        exact ih (fun e e' he => h e e' (.later hnext hcall he)) hpasses hhear

end Machine

namespace Ending

variable {α β : Type} {ending : Ending ν σ α} {f : α → β}

/-- What comes from a success was a success. -/
theorem exists_ok_of_map {b : β} (h : (ending.map f).result = .ok b) :
    ∃ a, ending.result = .ok a := by
  unfold map at h
  cases hresult : ending.result with
  | error error =>
    rw [hresult] at h
    cases h
  | ok a => exact ⟨a, rfl⟩

/-- An error stays an error. -/
theorem error_map {error : RuntimeError} (h : ending.result = .error error) :
    (ending.map f).result = .error error := by
  unfold map
  rw [h]
  rfl

end Ending

/-- A way into a machine. -/
inductive Entrance where
  /-- The body of the script is run. -/
  | script
  /-- A value is called. -/
  | call (callee : Value) (arguments : List Value)
  /-- The function in a global variable is called. -/
  | global (name : String) (arguments : List Value)
  /-- The messages that wait are heard. -/
  | inbound

namespace Entrance

variable {m : Machine ν} {w : World σ} {entrance : Entrance}

/-- How the entrance ends, without the value. -/
def run (sys : NativeSystem ν κ σ) (fuel : Nat) (m : Machine ν) (w : World σ) :
    Entrance → Option (Ending ν σ Unit)
  | .script => m.executeScript sys fuel w
  | .call callee arguments =>
    (m.callValue sys fuel callee arguments w).map (·.map fun _ => ())
  | .global name arguments => (m.callGlobal sys fuel name arguments w).map (·.map fun _ => ())
  | .inbound => (m.processInbound sys fuel w).map (·.map fun _ => ())

/-- The entrance begins the execution. -/
inductive Begins (sys : NativeSystem ν κ σ) (m : Machine ν) (w : World σ) :
    Entrance → Execution ν κ σ → Prop where
  | script : Begins sys m w .script (.startScript m w [])
  | call (callee : Value) (arguments : List Value) :
      Begins sys m w (.call callee arguments) (.startCall m w [] callee arguments)
  | global (name : String) (arguments : List Value)
      (h : (m.store.global (Utf8.encode name)).isNil = false) :
      Begins sys m w (.global name arguments)
        (.startCall m w [] (m.store.global (Utf8.encode name)) arguments)
  | inbound {e : Execution ν κ σ} (hready : m.isReady = true) (h : m.Hearing sys w e) :
      Begins sys m w .inbound e

/-- An execution that the entrance begins passes through the other one. -/
def Meets (sys : NativeSystem ν κ σ) (m : Machine ν) (w : World σ) (entrance : Entrance)
    (e' : Execution ν κ σ) : Prop :=
  ∃ e, Begins sys m w entrance e ∧ e.Passes sys e'

/-- What an entrance does about faults. -/
structure Final (sys : NativeSystem ν κ σ) (m : Machine ν) (w : World σ)
    (entrance : Entrance) : Prop where
  /-- A machine that has faulted lets nobody in. -/
  refuses : m.isReady = false → ∀ fuel, entrance.run sys fuel m w = some ⟨.error .halted, m, w⟩
  /-- A fault stays as it is. -/
  keeps : ∀ e e', Meets sys m w entrance e → e.Passes sys e' → ∀ f, e.machine.fault = some f →
    e'.machine.fault = some f
  /-- All activations in progress are left with errors after a fault exactly if no fault is
  swallowed. -/
  unwinds : (∀ e, Meets sys m w entrance e → e.Unwinds) ↔
    ∀ e, Meets sys m w entrance e → ¬e.Swallows sys
  /-- Then no instruction is carried out after a fault. -/
  rests : (∀ e, Meets sys m w entrance e → ¬e.Swallows sys) →
    ∀ e, Meets sys m w entrance e → e.machine.isReady = false → e.instruction? = none
  /-- Then the entrance fails after a fault. -/
  fails : (∀ e, Meets sys m w entrance e → ¬e.Swallows sys) →
    ∀ e, Meets sys m w entrance e → e.machine.isReady = false →
      ∀ fuel ending, entrance.run sys fuel m w = some ending → ∃ error, ending.result = .error error
  /-- Then the entrance succeeds only on a machine that is still ready. -/
  ready : (∀ e, Meets sys m w entrance e → ¬e.Swallows sys) →
    ∀ fuel ending, entrance.run sys fuel m w = some ending → ending.result = .ok () →
      ending.machine.isReady = true

/-- An execution that begins while messages are heard unwinds if it fails. -/
theorem unwinds_of_hearing {e : Execution ν κ σ} (h : m.Hearing sys w e) : e.Unwinds := by
  induction h with
  | now _ => exact Execution.unwinds_startCall _ _
  | later _ _ _ ih => exact ih

/-- An execution that begins an entrance unwinds if it fails. -/
theorem unwinds_of_begins {e : Execution ν κ σ} (h : Begins sys m w entrance e) : e.Unwinds := by
  cases h with
  | script => exact Execution.unwinds_startScript
  | call _ _ | global _ _ _ => exact Execution.unwinds_startCall _ _
  | inbound _ h => exact unwinds_of_hearing h

/-- Steps of what an entrance meets are met by it. -/
theorem meets_passes {e e' : Execution ν κ σ} (h : Meets sys m w entrance e)
    (hpasses : e.Passes sys e') : Meets sys m w entrance e' := by
  obtain ⟨e₀, hbegins, hmeets⟩ := h
  exact ⟨e₀, hbegins, hmeets.trans hpasses⟩

/-- A machine that has faulted lets nobody in. -/
theorem run_of_faulted (hm : m.isReady = false) (fuel : Nat) :
    entrance.run sys fuel m w = some ⟨.error .halted, m, w⟩ := by
  have hready : ¬m.isReady = true := by simp [hm]
  have hscript : (Execution.startScript m w [] : Execution ν κ σ) =
      ⟨m, w, ⟨0, .script⟩, .leaving (.error .halted), []⟩ := if_neg hready
  have hcall (callee : Value) (arguments : List Value) :
      (Execution.startCall m w [] callee arguments : Execution ν κ σ) =
        ⟨m, w, ⟨m.frames.size, .call⟩, .leaving (.error .halted), []⟩ := if_neg hready
  cases entrance with
  | script =>
    unfold run Machine.executeScript
    rw [hscript, Execution.run_of_left]
    rfl
  | call callee arguments =>
    unfold run Machine.callValue
    dsimp only
    rw [hcall, Execution.run_of_left]
    rfl
  | global name arguments =>
    unfold run Machine.callGlobal
    dsimp only
    rw [if_neg hready]
    rfl
  | inbound =>
    unfold run Machine.processInbound
    dsimp only
    rw [if_neg hready]
    rfl

section Unwinding

variable {fuel : Nat} {ending : Ending ν σ Unit}
  (h : ∀ e, Meets sys m w entrance e → e.Unwinds)

include h

/-- An entrance that unwinds succeeds only on a machine that is ready after it. -/
theorem isReady_of_run (hrun : entrance.run sys fuel m w = some ending)
    (hok : ending.result = .ok ()) : ending.machine.isReady = true := by
  by_cases hm : m.isReady = true
  · cases entrance with
    | script =>
      obtain ⟨inner, hinner, rfl⟩ := Option.map_eq_some_iff.mp hrun
      obtain ⟨value, hvalue⟩ := Ending.exists_ok_of_map hok
      exact Execution.isReady_of_run_ok (fun e' hpasses => h e' ⟨_, .script, hpasses⟩) hinner hvalue
    | call callee arguments =>
      obtain ⟨inner, hinner, rfl⟩ := Option.map_eq_some_iff.mp hrun
      obtain ⟨value, hvalue⟩ := Ending.exists_ok_of_map hok
      exact Execution.isReady_of_run_ok (fun e' hpasses => h e' ⟨_, .call _ _, hpasses⟩) hinner
        hvalue
    | global name arguments =>
      obtain ⟨inner, hinner, rfl⟩ := Option.map_eq_some_iff.mp hrun
      obtain ⟨value, hvalue⟩ := Ending.exists_ok_of_map hok
      unfold Machine.callGlobal at hinner
      rw [if_pos hm] at hinner
      dsimp only at hinner
      split at hinner
      · cases hinner
        exact hm
      · rename_i hcallee
        have hbegins : Begins sys m w (.global name arguments) _ :=
          .global name arguments (by simpa using hcallee)
        exact Execution.isReady_of_run_ok (fun e' hpasses => h e' ⟨_, hbegins, hpasses⟩) hinner
          hvalue
    | inbound =>
      obtain ⟨inner, hinner, rfl⟩ := Option.map_eq_some_iff.mp hrun
      obtain ⟨count, hcount⟩ := Ending.exists_ok_of_map hok
      unfold Machine.processInbound at hinner
      rw [if_pos hm] at hinner
      exact Machine.isReady_of_hearMessages hm
        (fun e e' he hpasses => h e' ⟨e, .inbound hm he, hpasses⟩) hinner hcount
  · rw [run_of_faulted (by simpa using hm)] at hrun
    cases hrun
    cases hok

/-- An entrance that unwinds fails if the machine faults on the way. -/
theorem exists_error_of_run {e : Execution ν κ σ} (he : Meets sys m w entrance e)
    (hfaulted : e.machine.isReady = false) (hrun : entrance.run sys fuel m w = some ending) :
    ∃ error, ending.result = .error error := by
  obtain ⟨e₀, hbegins, hpasses⟩ := he
  have hunwinds : ∀ e', e₀.Passes sys e' → e'.Unwinds := fun e' h' => h e' ⟨e₀, hbegins, h'⟩
  have hready : m.isReady = false ∨ m.isReady = true := by cases m.isReady <;> simp
  rcases hready with hm | hm
  · rw [run_of_faulted hm] at hrun
    cases hrun
    exact ⟨_, rfl⟩
  · have hsimple {inner : Ending ν σ Value} (hinner : e₀.run sys fuel = some inner) :
        ∃ error, (inner.map fun _ => ()).result = .error error := by
      obtain ⟨error, herror⟩ := Execution.exists_error_of_run hunwinds hpasses hfaulted hinner
      exact ⟨error, Ending.error_map herror⟩
    cases hbegins with
    | script | call _ _ =>
      obtain ⟨inner, hinner, rfl⟩ := Option.map_eq_some_iff.mp hrun
      exact hsimple hinner
    | global name arguments hcallee =>
      obtain ⟨inner, hinner, rfl⟩ := Option.map_eq_some_iff.mp hrun
      unfold Machine.callGlobal at hinner
      rw [if_pos hm] at hinner
      dsimp only at hinner
      rw [if_neg (by simp [hcallee])] at hinner
      exact hsimple hinner
    | inbound _ hhearing =>
      obtain ⟨inner, hinner, rfl⟩ := Option.map_eq_some_iff.mp hrun
      unfold Machine.processInbound at hinner
      rw [if_pos hm] at hinner
      obtain ⟨error, herror⟩ := Machine.exists_error_of_hearMessages hhearing
        (fun e e' he h' => h e' ⟨e, .inbound hm he, h'⟩) hpasses hfaulted hinner
      exact ⟨error, Ending.error_map herror⟩

end Unwinding

/-- Faults are final exactly if no native function swallows one. -/
theorem final (sys : NativeSystem ν κ σ) (m : Machine ν) (w : World σ) (entrance : Entrance) :
    entrance.Final sys m w := by
  have hunwinds : (∀ e, Meets sys m w entrance e → e.Unwinds) ↔
      ∀ e, Meets sys m w entrance e → ¬e.Swallows sys := by
    constructor
    · intro h e he hswallows
      exact hswallows.not_unwinds (h _ (meets_passes he (.step .refl)))
    · rintro h e ⟨e₀, hbegins, hpasses⟩
      exact (unwinds_of_begins hbegins).passes (fun e' h' => h e' ⟨e₀, hbegins, h'⟩) hpasses
  exact {
    refuses := run_of_faulted
    keeps := fun _ _ _ hpasses _ hf => Execution.fault_passes hpasses hf
    unwinds := hunwinds
    rests := fun h e he hfaulted => (hunwinds.mpr h e he).instruction? hfaulted
    fails := fun h _ he hfaulted _ _ hrun => exists_error_of_run (hunwinds.mpr h) he hfaulted hrun
    ready := fun h _ _ hrun hok => isReady_of_run (hunwinds.mpr h) hrun hok }

/-- Loaded scripts have no native functions that swallow faults. -/
theorem not_swallows_of_meets (hooks : HookTable σ) {m : Machine Native} {w : World σ}
    {e : Execution Native Traversal σ} (he : Meets (Native.system hooks) m w entrance e) :
    ¬e.Swallows (Native.system hooks) := by
  obtain ⟨e₀, hbegins, hpasses⟩ := he
  have hforwards := Native.system_forwards hooks
  exact ((unwinds_of_begins hbegins).of_forwards hforwards hpasses).not_swallows hforwards

/-- What every script has, and a function that calls its argument and goes on with the wording of
the error if the call fails. -/
def tolerant : NativeSystem (Option Builtin) (Option Traversal) Unit where
  enter native m w :=
    match native with
    | some b =>
      let (move, store) := b.enter m
      ⟨move.map some, store, w⟩
    | none =>
      match m.local? 1 with
      | .ok callee => ⟨.call callee (m.arguments.drop 1) none, m.store, w⟩
      | .error error => ⟨.finish (.error error), m.store, w⟩
  resume waiting result m w :=
    match waiting, result with
    | some traversal, result => ⟨(traversal.resume result).map some, m.store, w⟩
    | none, .ok value => ⟨.finish (.ok value), m.store, w⟩
    | none, .error error =>
      let (store, text) := m.store.intern (Utf8.encode error.message)
      ⟨.finish (.ok text), store, w⟩

/-- A script that lets the tolerant function call the empty value and drops what it gets. -/
def careless : Bytes :=
  [0x48, 0x49, 0x56, 0x45, 1, 1, 0, 3, 0, 0x74, 0x72, 0x79, 8, 0, 0, 0, 12, 0, 0, 2, 16, 1, 9, 0]

/-- A machine for a program, with the tolerant function. -/
def tolerantMachine (program : Program) : Machine (Option Builtin) :=
  (Machine.new program {} 0 some).mapStore fun s => (s.define "try" none).1

/-- The body of a script after some steps. -/
def tolerantAfter (program : Program) : Nat → Execution (Option Builtin) (Option Traversal) Unit
  | 0 => .startScript (tolerantMachine program) { host := () } []
  | n + 1 => (tolerantAfter program n).step tolerant

/-- The steps of the body are met by the entrance that runs it. -/
theorem meets_tolerantAfter (program : Program) (n : Nat) :
    Meets tolerant (tolerantMachine program) { host := () } .script (tolerantAfter program n) := by
  induction n with
  | zero => exact ⟨_, .script, .refl⟩
  | succ n ih => exact meets_passes ih (.step .refl)

/-- The tolerant function swallows a fault: an instruction is carried out on the machine that has
faulted, and the body of the script succeeds. -/
theorem swallows_careless : ∃ (program : Program)
    (e e' : Execution (Option Builtin) (Option Traversal) Unit) (ending : Ending _ Unit Unit),
    Program.ofBytes careless = .ok program ∧ (tolerantMachine program).isReady = true ∧
      Meets tolerant (tolerantMachine program) { host := () } .script e ∧ e.Swallows tolerant ∧
      e.Passes tolerant e' ∧ e'.machine.fault = some ⟨6, .notCallable .nil⟩ ∧
      e'.instruction? = some .pop ∧
      Entrance.script.run tolerant 10 (tolerantMachine program) { host := () } = some ending ∧
      ending.result = .ok () ∧ ending.machine.fault = some ⟨6, .notCallable .nil⟩ := by
  have hcheck : (Program.ofBytes careless).toOption.any fun program => decide (
      (tolerantMachine program).isReady = true ∧ (tolerantAfter program 4).Unwinds ∧
      ¬(tolerantAfter program 5).Unwinds ∧
      (tolerantAfter program 5).machine.fault = some ⟨6, .notCallable .nil⟩ ∧
      (tolerantAfter program 5).instruction? = some .pop ∧
      (Entrance.script.run tolerant 10 (tolerantMachine program) { host := () }).any fun ending =>
        ending.result.isOk ∧ ending.machine.fault = some ⟨6, .notCallable .nil⟩) := by
    decide +kernel
  cases hprogram : Program.ofBytes careless with
  | error error =>
    rw [hprogram] at hcheck
    cases hcheck
  | ok program =>
    rw [hprogram] at hcheck
    change decide _ = true at hcheck
    obtain ⟨hready, hunwinds, hnot, hfault, hpop, hrun⟩ := of_decide_eq_true hcheck
    obtain ⟨ending, hending, hends⟩ := (Option.any_eq_true _ _).mp hrun
    obtain ⟨hok, hstays⟩ := of_decide_eq_true hends
    have hswallows : (tolerantAfter program 4).Swallows tolerant := by
      by_contra h
      exact hnot (hunwinds.step h)
    refine ⟨program, tolerantAfter program 4, tolerantAfter program 5, ending, rfl, hready,
      meets_tolerantAfter program 4, hswallows, .step .refl, hfault, hpop, hending, ?_, hstays⟩
    cases hresult : ending.result with
    | ok value => rfl
    | error error =>
      rw [hresult] at hok
      cases hok

end Entrance

end Swarm
