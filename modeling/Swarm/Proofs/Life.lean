import Mathlib.Logic.Relation
import Swarm.Bridge.Hooks
import Swarm.Bridge.Load
import Swarm.Proofs.SoundExecution
import Swarm.Proofs.Work

/-!
# The life of a machine

Between its loading and its end a machine is idle or at work. The host changes the
store of an idle machine, lets messages be taken from it, and enters it; a machine
at work goes on step by step until it has left its outermost activation. Turns and
the unloading of a script are made of these moves; in addition a turn releases
strings at its end.
-/

namespace Swarm

/-- A machine between two moves. -/
inductive Stage (σ : Type) where
  /-- Nothing of it is being executed. -/
  | idle (m : Machine Native)
  /-- It is at work. -/
  | busy (e : Execution Native Traversal σ)

/-- The machine of a stage. -/
def Stage.machine {σ : Type} : Stage σ → Machine Native
  | .idle m => m
  | .busy e => e.machine

/-- A change that the host makes to the store of an idle machine. -/
inductive Store.HostChange (s : Store Native) : Store Native → Prop where
  | resetNeighbors : HostChange s s.resetNeighbors
  | addNeighbor (n : Neighbor) : HostChange s (s.addNeighbor n)
  | setPosition (p : Position) :
      HostChange s ((s.newPoint p).1.setGlobal (Utf8.encode positionGlobal) (s.newPoint p).2)
  | receive (message : Message) : HostChange s (s.receive message)
  | takeOutbound : HostChange s s.takeOutbound.2
  | define (name : String) (native : Native) : HostChange s (s.define name native).1

variable {σ α : Type}

/-- A move in the life of a machine, under whatever bindings the slots have at that moment. -/
inductive Stage.Next : Stage σ → Stage σ → Prop where
  | change {m : Machine Native} {s : Store Native} (h : m.store.HostChange s) :
      Next (.idle m) (.idle { m with store := s })
  | drop {m m' : Machine Native} {w w' : World σ} (h : m.nextDelivery w = (none, m', w')) :
      Next (.idle m) (.idle m')
  | hear {m m' : Machine Native} {w w' : World σ} {listener : Value} {arguments : List Value}
      (h : m.nextDelivery w = (some (listener, arguments), m', w')) :
      Next (.idle m) (.busy (.startCall m' w' [] listener arguments))
  | body (m : Machine Native) (w : World σ) : Next (.idle m) (.busy (.startScript m w []))
  | call (m : Machine Native) (w : World σ) (name : String) :
      Next (.idle m) (.busy (.startCall m w [] (m.store.global (Utf8.encode name)) []))
  | step (hooks : HookTable σ) (e : Execution Native Traversal σ) :
      Next (.busy e) (.busy (e.step (Native.system hooks)))
  | leave (m : Machine Native) (w : World σ) (activation : Activation)
      (result : Except RuntimeError Value) :
      Next (.busy ⟨m, w, activation, .leaving result, []⟩) (.idle m)

/-- Moves lead from the one stage to the other. -/
abbrev Stage.Leads : Stage σ → Stage σ → Prop := Relation.ReflTransGen Stage.Next

/-- Moves lead from the one idle machine to the other. -/
abbrev Machine.Leads (σ : Type) (m m' : Machine Native) : Prop :=
  Stage.Leads (σ := σ) (.idle m) (.idle m')

section Entries

variable {hooks : HookTable σ} {fuel : Nat} {m : Machine Native} {w : World σ}

/-- The steps of an execution are moves. -/
theorem leads_passes {e e' : Execution Native Traversal σ}
    (h : e.Passes (Native.system hooks) e') : Stage.Leads (.busy e) (.busy e') := by
  induction h with
  | refl => exact .refl
  | step _ ih => exact ih.tail (.step hooks _)

/-- A run leads to the machine that it ends with. -/
theorem leads_run {e : Execution Native Traversal σ} {ending : Ending Native σ Value}
    (h : e.run (Native.system hooks) fuel = some ending) :
    Stage.Leads (.busy e) (.idle ending.machine) := by
  obtain ⟨activation, hpasses⟩ := Execution.passes_of_run h
  exact (leads_passes hpasses).tail (.leave _ _ _ _)

/-- Running the body leads to the machine at its end. -/
theorem leads_executeScript {ending : Ending Native σ Unit}
    (h : m.executeScript (Native.system hooks) fuel w = some ending) :
    m.Leads σ ending.machine := by
  unfold Machine.executeScript at h
  obtain ⟨inner, hrun, rfl⟩ := Option.map_eq_some_iff.mp h
  exact .head (.body m w) (leads_run hrun)

/-- Calling a global function leads to the machine at its end. -/
theorem leads_callGlobal {name : String} {ending : Ending Native σ Value}
    (h : m.callGlobal (Native.system hooks) fuel name [] w = some ending) :
    m.Leads σ ending.machine := by
  unfold Machine.callGlobal at h
  split at h
  · dsimp only at h
    split at h
    · cases h
      exact .refl
    · exact .head (.call m w name) (leads_run h)
  · cases h
    exact .refl

/-- Hearing messages is one call after another. -/
theorem leads_hearMessages {heard rounds : Nat} {ending : Ending Native σ Nat}
    (h : m.hearMessages (Native.system hooks) fuel w heard rounds = some ending) :
    m.Leads σ ending.machine := by
  induction rounds generalizing m w heard with
  | zero => cases h
  | succ rounds ih =>
    unfold Machine.hearMessages at h
    split at h
    · rename_i hnext
      cases h
      exact .single (.drop hnext)
    · rename_i hnext
      have hcall {inner : Ending Native σ Value}
          (hinner : Machine.callValue (Native.system hooks) fuel _ _ _ _ = some inner) :
          m.Leads σ inner.machine :=
        .head (.hear hnext) (leads_run hinner)
      split at h
      · cases h
      · rename_i hinner
        cases h
        exact hcall hinner
      · rename_i hinner
        exact (hcall hinner).trans (ih h)

/-- Hearing the messages that wait leads to the machine at its end. -/
theorem leads_processInbound {ending : Ending Native σ Nat}
    (h : m.processInbound (Native.system hooks) fuel w = some ending) :
    m.Leads σ ending.machine := by
  unfold Machine.processInbound at h
  split at h
  · exact leads_hearMessages h
  · cases h
    exact .refl

end Entries

/-- The machine after the strings that it does not need have been released. -/
def Machine.released (m : Machine Native) : Machine Native :=
  { m with store := { m.store with strings := m.collectStrings.1 } }

namespace Instance

variable {hooks : HookTable σ} {fuel : Nat} {i i' : Instance} {w w' : World σ}

/-- A part of a turn leads the machine on, whether it fails or not. -/
def LeadsOn (work : Turn σ α) : Prop :=
  ∀ i w, Work.Ends work (i, w) (fun _ t => i.machine.Leads σ t.1.machine)
    fun _ t => i.machine.Leads σ t.1.machine

/-- An entry leads on to where it ends. -/
theorem leadsOn_enter {f : Machine Native → World σ → Option (Ending Native σ α)}
    (hf : ∀ m w ending, f m w = some ending → m.Leads σ ending.machine) :
    LeadsOn (Turn.enter f) := by
  intro i w answer hanswer
  obtain ⟨ending, hending, rfl⟩ := Option.map_eq_some_iff.mp hanswer
  match hresult : ending.result with
  | .ok _ | .error _ => exact hf _ _ _ hending

/-- Work that leads on may be followed by more such work. -/
theorem LeadsOn.bind {β : Type} {work : Turn σ α} {next : α → Turn σ β} (h : LeadsOn work)
    (hnext : ∀ a, LeadsOn (next a)) : LeadsOn (work >>= next) := by
  intro i w
  refine (h i w).bind fun a t hlead => ?_
  exact (hnext a t.1 t.2).imp (fun _ _ h => hlead.trans h) fun _ _ h => hlead.trans h

/-- A change of the script leaves its machine. -/
theorem leadsOn_update {f : Instance → Instance} (hf : ∀ i, (f i).machine = i.machine) :
    LeadsOn (Turn.update f : Turn σ Unit) := by
  intro i w
  apply Work.ends_modify
  rw [hf i]

/-- A report leaves the machine. -/
theorem leadsOn_report (text : Instance → String) : LeadsOn (Turn.report text : Turn σ Unit) :=
  fun _ _ => Work.ends_modify .refl

/-- Running the body and the function `init`. -/
theorem leadsOn_begin : LeadsOn (begin hooks fuel) := by
  unfold begin
  refine (leadsOn_update ?_).bind fun _ => ?_
  · exact fun _ => rfl
  refine (leadsOn_enter fun _ _ _ => leads_executeScript).bind fun _ => ?_
  refine (leadsOn_enter fun _ _ _ => leads_callGlobal).bind fun _ => ?_
  refine (leadsOn_update ?_).bind fun _ => leadsOn_report _
  exact fun _ => rfl

/-- A turn leads the machine on; if it succeeds, it releases strings at the end. -/
theorem ends_turn (i : Instance) (w : World σ) :
    Work.Ends (turn hooks fuel) (i, w)
      (fun _ t => ∃ m, i.machine.Leads σ m ∧ t.1.machine = m.released)
      fun _ t => i.machine.Leads σ t.1.machine := by
  have hrest (t : Instance × World σ) (hlead : i.machine.Leads σ t.1.machine) :
      Work.Ends (do
          let _ ← Turn.enter (Machine.processInbound (Native.system hooks) fuel)
          let _ ← Turn.enter (Machine.callGlobal (Native.system hooks) fuel "step" [])
          Turn.releaseStrings) t
        (fun _ t => ∃ m, i.machine.Leads σ m ∧ t.1.machine = m.released)
        fun _ t => i.machine.Leads σ t.1.machine := by
    have hhear : LeadsOn (Turn.enter (Machine.processInbound (Native.system hooks) fuel)) :=
      leadsOn_enter fun _ _ _ => leads_processInbound
    have hstep : LeadsOn (Turn.enter (Machine.callGlobal (Native.system hooks) fuel "step" [])) :=
      leadsOn_enter fun _ _ _ => leads_callGlobal
    refine ((hhear t.1 t.2).imp (fun _ _ h => hlead.trans h) fun _ _ h => hlead.trans h).bind
      fun _ t₁ h₁ => ?_
    refine ((hstep t₁.1 t₁.2).imp (fun _ _ h => h₁.trans h) fun _ _ h => h₁.trans h).bind
      fun _ t₂ h₂ => ?_
    exact Work.ends_modify ⟨t₂.1.machine, h₂, rfl⟩
  unfold turn
  apply Work.ends_get_bind
  dsimp only
  split
  · exact (leadsOn_begin i w).bind fun _ t h => hrest t h
  · exact hrest (i, w) .refl

/-- A step that ends in readiness has released strings at its end; any other step only leads the
machine on. -/
theorem leads_of_step {outcome : StepOutcome}
    (h : i.step hooks fuel w = some (outcome, i', w')) :
    (outcome = .ready → ∃ m, i.machine.Leads σ m ∧ i'.machine = m.released) ∧
      (outcome ≠ .ready → i.machine.Leads σ i'.machine) := by
  unfold step at h
  split at h
  · obtain ⟨answer, hanswer, heq⟩ := Option.map_eq_some_iff.mp h
    match answer with
    | (.ok (), i₁, w₁) =>
      cases heq
      exact ⟨fun _ => (ends_turn i w).ok hanswer, fun hne => absurd rfl hne⟩
    | (.error e, i₁, w₁) =>
      cases heq
      exact ⟨(nomatch ·), fun _ => (ends_turn i w).error hanswer⟩
  · cases h
    exact ⟨(nomatch ·), fun _ => .refl⟩

end Instance

end Swarm
