import Swarm.Proofs.Isolation
import Swarm.Proofs.Nesting
import Swarm.Proofs.Operations

/-!
# What a body leaves on the stack

A body that runs to its end leaves nothing on the stack. A body that ends with a
return has no caller that could take the result, so the result stays on the stack.
All other entries into a machine take what they have pushed. After a step from which
a machine comes back ready, its stack therefore holds one value for every return
from the body that has been told.
-/

namespace Swarm

variable {σ α β : Type}

/-- The next step is a return in the frame of the body. -/
def Execution.returnsFromBody {ν κ : Type} (e : Execution ν κ σ) : Bool :=
  e.instruction?.any Instruction.isReturn && e.machine.frames.back?.any (·.kind = .script)

/-- The body of the script ends with a return. -/
def Moment.returnsFromBody : Moment σ → Bool
  | .works e _ => e.returnsFromBody
  | _ => false

namespace Machine

variable {ν : Type} {m m' : Machine ν} {outer : Array Frame} {f : Frame} {returning : Bool}
  {called : Option ν} {n : Nat}

/-- No call is in progress, and what is left on the stack is nothing or one value. -/
structure Leaves (m : Machine ν) (n : Nat) : Prop where
  frames : m.frames = #[]
  size : m.stack.size = n
  le : n ≤ 1

/-- Restoring frames and stack leaves as many values. -/
theorem Leaves.restored (h : m.Leaves n) (hm : m.Restores m') : m'.Leaves n :=
  ⟨hm.frames.trans h.frames, hm.size.trans h.size, h.le⟩

/-- At most one value is left. -/
theorem Leaves.le_max (h : m.Leaves n) : m.stack.size ≤ max 1 m.stackFloor := by
  have hsize := h.size
  have hle := h.le
  omega

/-- A ready machine that no call is in progress on is at rest. -/
theorem Leaves.atRest (h : m.Leaves n) (hready : m.isReady = true) : m.AtRest :=
  ⟨hready, by rw [h.frames]; rfl⟩

/-- The frame of the body is the outermost one, with nothing below it on the stack, and there is no
other frame of a body. -/
structure InBody (m : Machine ν) : Prop where
  body : ∃ f, m.frames[0]? = some f ∧ f.kind = .script ∧ f.stackBase = 0
  others : ∀ k g, 1 ≤ k → m.frames[k]? = some g → g.kind ≠ .script

/-- Entering a script on an empty stack puts the body at the bottom. -/
theorem inBody_enterScript (h : m.Leaves 0) : m.enterScript.InBody := by
  have hframes : m.enterScript.frames = #[⟨.script, 0, #[.nil], 0⟩] := by
    unfold enterScript
    rw [h.frames, h.size]
    rfl
  refine ⟨⟨_, by rw [hframes]; rfl, rfl, rfl⟩, fun k g hk hg => ?_⟩
  rw [hframes, Array.getElem?_eq_none (by simpa using hk)] at hg
  cases hg

/-- Work goes on above the body, or it ends the body; a return from it leaves one value. -/
theorem Alters.inBody (h : m.Alters outer f returning called m') (hframes : m.frames = outer.push f)
    (hm : m.InBody) :
    m'.InBody ∧ (returning && decide (f.kind = .script)) = false ∨
      m'.Leaves (if returning && decide (f.kind = .script) then 1 else 0) := by
  obtain ⟨body, hbody, hkind, hbase⟩ := hm.body
  have hothers := h.kind hframes hm.others
  by_cases houter : 0 < outer.size
  · have hinner : f.kind ≠ .script := by
      refine hm.others outer.size f houter ?_
      rw [hframes, Array.getElem?_push_size]
    refine .inl ⟨⟨⟨body, ?_, hkind, hbase⟩, hothers⟩, by simp [hinner]⟩
    rw [h.getElem?_outer houter, ← hbody, hframes, Array.getElem?_push, if_neg (by omega)]
  · have hempty : outer = #[] := Array.eq_empty_of_size_eq_zero (by omega)
    subst hempty
    rw [hframes] at hbody
    obtain rfl : f = body := Option.some.inj hbody
    cases h with
    | works hframes' hsame _ =>
      obtain ⟨hkind', _, hbase'⟩ := Frame.eq_of_outline hsame
      refine .inl ⟨⟨⟨_, ?_, hkind'.trans hkind, hbase'.trans hbase⟩, hothers⟩, rfl⟩
      rw [hframes']
      rfl
    | enters hframes' _ _ _ _ =>
      exact .inl ⟨⟨⟨f, by rw [hframes']; rfl, hkind, hbase⟩, hothers⟩, rfl⟩
    | returns hframes' _ hsize =>
      refine .inr ⟨hframes', ?_, ?_⟩ <;> simp [hsize, hkind, hbase]
    | ends hframes' _ hsize =>
      refine .inr ⟨hframes', ?_, ?_⟩ <;> simp [hsize, hbase]

end Machine

namespace Execution

variable {ν κ : Type} {sys : NativeSystem ν κ σ} {e : Execution ν κ σ} {n : Nat}

/-- The body of the script is being run, and `n` of its steps were returns from it. -/
structure RunsBody (e : Execution ν κ σ) (n : Nat) : Prop where
  base : outermost e.activation e.waiting = ⟨0, .script⟩
  ongoing : e.Ongoing → e.machine.InBody ∧ n = 0 ∨ e.machine.Leaves n
  done : e.waiting = [] → ∀ v, e.phase = .leaving (.ok v) → e.machine.Leaves n

/-- What a body that fails leaves does not matter. -/
theorem runsBody_of_fails {m : Machine ν} (hbase : outermost e.activation e.waiting = ⟨0, .script⟩)
    (h : e.Fails m) (n : Nat) : e.RunsBody n := by
  refine ⟨hbase, fun hgoes => absurd hgoes h.not_ongoing, fun _ v hv => ?_⟩
  obtain ⟨error, herror⟩ := h.phase
  cases hv.symm.trans herror

/-- Without an instruction there is no return. -/
theorem returnsFromBody_of_none (h : e.instruction? = none) : e.returnsFromBody = false := by
  unfold returnsFromBody
  rw [h]
  rfl

/-- Whether a step returns from the body shows in its instruction and the innermost frame. -/
theorem returnsFromBody_of_frames {outer : Array Frame} {f : Frame}
    (h : e.machine.frames = outer.push f) : e.returnsFromBody =
      (e.instruction?.any Instruction.isReturn && decide (f.kind = .script)) := by
  unfold returnsFromBody
  rw [h, Array.back?_push]
  rfl

/-- Where no frame is left the body has ended. -/
theorem RunsBody.leaves_of_size (h : e.RunsBody n) (hgoes : e.Ongoing)
    (hsize : e.machine.frames.size = 0) : e.machine.Leaves n := by
  rcases h.ongoing hgoes with ⟨hbody, _⟩ | hleaves
  · obtain ⟨f, hf, _⟩ := hbody.body
    obtain ⟨hlt, _⟩ := Array.getElem?_eq_some_iff.mp hf
    omega
  · exact hleaves

/-- Work goes on in the body or above it, or ends the body. -/
theorem RunsBody.of_alters {e' : Execution ν κ σ} {outer : Array Frame} {f : Frame} {ends : Bool}
    {called : Option ν} (h : e.RunsBody n) (hgoes : e.Ongoing)
    (hframes : e.machine.frames = outer.push f)
    (hreturning : f.kind = .script → ends = e.instruction?.any Instruction.isReturn)
    (halters : e.machine.Alters outer f ends called e'.machine) :
    e'.machine.InBody ∧ n + (if e.returnsFromBody then 1 else 0) = 0 ∨
      e'.machine.Leaves (n + if e.returnsFromBody then 1 else 0) := by
  have hcount : (ends && decide (f.kind = .script)) = e.returnsFromBody := by
    rw [returnsFromBody_of_frames hframes]
    by_cases hkind : f.kind = .script
    · rw [hreturning hkind]
    · simp [hkind]
  rw [← hcount]
  rcases h.ongoing hgoes with ⟨hbody, rfl⟩ | hleaves
  · rcases halters.inBody hframes hbody with ⟨hbody', hnone⟩ | hleaves
    · rw [hnone]
      exact .inl ⟨hbody', rfl⟩
    · rw [Nat.zero_add]
      exact .inr hleaves
  · have hsize := congrArg Array.size (hframes.symm.trans hleaves.frames)
    rw [Array.size_push] at hsize
    cases hsize

/-- A step of the body counts itself if it is a return from it. -/
theorem RunsBody.step (h : e.RunsBody n) (hgoes : e.Goes (e.step sys)) :
    (e.step sys).RunsBody (n + if e.returnsFromBody then 1 else 0) := by
  have hbase := (outermost_step sys e).trans h.base
  generalize e.step sys = e' at hgoes hbase
  cases hgoes with
  | unwinds hfails => exact runsBody_of_fails hbase hfails _
  | stays hphase _ hsame =>
    obtain ⟨result, hphase⟩ := hphase
    have hnone : e.instruction? = none := by
      unfold instruction?
      rw [hphase]
    rw [returnsFromBody_of_none hnone, hsame]
    exact h
  | closes hphase hwaiting hstop hsame =>
    have hactivation : e.activation = ⟨0, .script⟩ := by
      rw [← h.base, hwaiting]
      rfl
    have hnone : e.instruction? = none := by
      unfold instruction?
      rw [hphase]
      exact if_neg (by omega)
    rw [hactivation] at hstop
    have hleaves := h.leaves_of_size (ongoing_of_ne (by simp [hphase])) hstop
    rw [returnsFromBody_of_none hnone]
    unfold close at hsame
    rw [hactivation] at hsame
    subst hsame
    exact ⟨hbase, fun _ => .inr hleaves, fun _ _ _ => hleaves⟩
  | furthers hgoes hfurthers =>
    cases hfurthers with
    | fails hfails => exact runsBody_of_fails hbase hfails _
    | alters hframes _ hreturning halters hgoes' =>
      exact ⟨hbase, fun _ => h.of_alters hgoes hframes hreturning halters,
        fun hwaiting v hv => absurd hwaiting (hgoes' _ hv).1⟩

end Execution

section Runs

open Execution

variable {hooks : HookTable σ} {fuel : Nat} {m : Machine Native} {w : World σ}
  {e : Execution Native Traversal σ} {n : Nat}

/-- A body that succeeds leaves one value for every return from it. -/
theorem Execution.RunsBody.leaves (hpoised : e.Poised) (h : e.RunsBody n)
    {ending : Ending Native σ Value} {v : Value}
    (hrun : e.run (Native.system hooks) fuel = some ending) (hok : ending.result = .ok v) :
    ending.machine.Leaves (n + (e.trail hooks fuel).countP Moment.returnsFromBody) := by
  fun_induction trail hooks fuel e generalizing n with
  | case1 fuel m w activation result =>
    rw [run_of_left] at hrun
    cases hrun
    exact h.done rfl v (congrArg Phase.leaving hok)
  | case2 e he =>
    obtain ⟨activation, rfl⟩ | ⟨_, hless, _⟩ := exists_of_run hrun
    · exact (he _ _ _ _ rfl).elim
    · cases hless
  | case3 fuel e he e' =>
    rename_i ih
    obtain ⟨activation, rfl⟩ | ⟨_, hless, hstep⟩ := exists_of_run hrun
    · exact (he _ _ _ _ rfl).elim
    · cases hless
      obtain ⟨hpoised', hgoes⟩ := hpoised.step (Native.system_forwards hooks)
      have hleaves := ih hpoised' (h.step hgoes) hstep
      rw [List.countP_cons, Nat.add_comm (List.countP _ _), ← Nat.add_assoc]
      exact hleaves

/-- Steps of a call from outside are no returns from the body. -/
theorem Execution.Steady.returnsFromBody_eq (h : e.Steady .call) : e.returnsFromBody = false := by
  cases hi : e.instruction? with
  | none => exact returnsFromBody_of_none hi
  | some i =>
    have hphase := h.phase
    rw [running_of_instruction? hi] at hphase
    have hbody := (hphase.2 rfl).noBody
    unfold returnsFromBody
    rw [Bool.and_eq_false_iff]
    refine .inr (Bool.eq_false_iff.mpr fun hany => ?_)
    obtain ⟨f, hf, hkind⟩ := (Option.any_eq_true _ _).mp hany
    exact hbody f (Array.mem_of_back? hf) (of_decide_eq_true hkind)

/-- In a call from outside no body is being run. -/
theorem Execution.Steady.countP_trail (h : e.Steady .call) :
    (e.trail hooks fuel).countP Moment.returnsFromBody = 0 := by
  fun_induction trail hooks fuel e with
  | case1 | case2 => rfl
  | case3 fuel e he e' =>
    rename_i ih
    rw [List.countP_cons, ih (h.step (Native.system_forwards hooks)), Moment.returnsFromBody,
      h.returnsFromBody_eq]
    rfl

/-- In a call from outside there are no returns from the body. -/
theorem Machine.countP_tellCall (hm : m.AtRest) (callee : Value) (arguments : List Value) :
    ((Execution.startCall m w [] callee arguments).tell hooks fuel).2.countP
      Moment.returnsFromBody = 0 := by
  refine Steady.countP_trail (steady_startCall ?_ hm.1 fun _ => hm.noBody)
  rw [hm.2]
  rfl

/-- Nor are there any in a call of a global function. -/
theorem Machine.countP_tellGlobal (hm : m.AtRest) (name : String) :
    (m.tellGlobal hooks fuel name w).2.countP Moment.returnsFromBody = 0 := by
  unfold tellGlobal
  rw [if_pos hm.1]
  dsimp only
  split
  · rfl
  · exact countP_tellCall hm _ _

/-- The call to have a message heard. -/
theorem Machine.countP_hear {m' : Machine Native} {message : Message} {rest : List Message}
    {arguments : List Value} (hm : m.AtRest)
    (hpresent : (m.leaveMessages rest).present message = (m', arguments)) (listener : Value)
    {answer : Option (Ending Native σ Value)} {work : List (Moment σ)}
    (htell : (Execution.startCall m' w [] listener arguments).tell hooks fuel = (answer, work)) :
    work.countP Moment.returnsFromBody = 0 ∧
      ∀ ending, answer = some ending → ending.Settles := by
  have hm' : m'.AtRest := by
    have hsame : ((m.leaveMessages rest).present message).1 = m' := congrArg Prod.fst hpresent
    rw [← hsame]
    exact hm
  obtain ⟨hrun, rfl⟩ := Prod.mk.inj htell
  refine ⟨countP_tellCall hm' listener arguments, fun ending hending => ?_⟩
  exact settles_callValue (Native.system_forwards hooks) hm' (hrun.trans hending)

/-- Nor are there any while messages are heard. -/
theorem Machine.countP_tellMessages (hm : m.AtRest) (heard rounds : Nat) :
    (m.tellMessages hooks fuel w heard rounds).2.countP Moment.returnsFromBody = 0 := by
  revert hm
  fun_induction tellMessages hooks fuel m w heard rounds with
  | case1 | case2 => exact fun _ => rfl
  | case3 m w heard rounds message rest hinbound hlistener text answer moments hrest ih =>
    intro hm
    rw [hrest] at ih
    exact ih hm
  | case4 m w heard rounds message rest hinbound listener hlistener m' arguments hpresent work
      moments htell =>
    intro hm
    exact (countP_hear hm hpresent listener htell).1
  | case5 m w heard rounds message rest hinbound listener hlistener m' arguments hpresent work
      moments error m₁ w₁ htell =>
    intro hm
    obtain ⟨hwork, _⟩ := countP_hear hm hpresent listener htell
    rw [List.countP_append]
    exact Nat.add_eq_zero_iff.mpr ⟨hwork, rfl⟩
  | case6 m w heard rounds message rest hinbound listener hlistener m' arguments hpresent work
      moments value m₁ w₁ answer more hmore htell ih =>
    intro hm
    obtain ⟨hwork, hsettles⟩ := countP_hear hm hpresent listener htell
    have hmore' := ih (hsettles _ rfl)
    rw [hmore] at hmore'
    rw [List.countP_append]
    exact Nat.add_eq_zero_iff.mpr ⟨hwork, hmore'⟩

/-- A telling from a machine with `n` values left: if the entry succeeds, every return from the body
that is told leaves one more. -/
def Telling.Leaves (telling : Telling σ α) (n : Nat) : Prop :=
  ∀ ending a, telling.1 = some ending → ending.result = .ok a →
    ending.machine.isReady = true ∧
      ending.machine.Leaves (n + telling.2.countP Moment.returnsFromBody)

/-- Running the body leaves one value for every return from it. -/
theorem Machine.leaves_tellScript (hready : m.isReady = true) (hm : m.Leaves 0) (w : World σ) :
    (m.tellScript hooks fuel w).Leaves 0 := by
  intro ending a hending hok
  obtain ⟨inner, hinner, rfl⟩ := Option.map_eq_some_iff.mp hending
  obtain ⟨v, hv⟩ := Ending.exists_ok_of_map hok
  have hbody : (startScript m w [] : Execution Native Traversal σ).RunsBody 0 := by
    unfold startScript
    rw [if_pos hready]
    refine ⟨rfl, fun _ => .inl ⟨Machine.inBody_enterScript hm, rfl⟩, fun _ _ h => nomatch h⟩
  have hunwinds : ∀ e', (startScript m w [] : Execution Native Traversal σ).Passes
      (Native.system hooks) e' → e'.Unwinds :=
    fun _ hpasses => unwinds_startScript.of_forwards (Native.system_forwards hooks) hpasses
  exact ⟨isReady_of_run_ok hunwinds hinner hv,
    hbody.leaves (poised_startScript m w) hinner hv⟩

/-- Calling a global function leaves as many values as before. -/
theorem Machine.leaves_tellGlobal (hready : m.isReady = true) (hm : m.Leaves n) (name : String)
    (w : World σ) : (m.tellGlobal hooks fuel name w).Leaves n := by
  intro ending v hending hok
  rw [countP_tellGlobal (hm.atRest hready)]
  rw [tellGlobal_fst] at hending
  obtain ⟨hrestores, hready'⟩ :=
    restores_callGlobal (Native.system_forwards hooks) hm.le_max hending hok
  exact ⟨hready', hm.restored hrestores⟩

/-- Hearing messages leaves as many values as before. -/
theorem Machine.leaves_tellInbound (hready : m.isReady = true) (hm : m.Leaves n) (w : World σ) :
    (m.tellInbound hooks fuel w).Leaves n := by
  intro ending v hending hok
  have hcount : (m.tellInbound hooks fuel w).2.countP Moment.returnsFromBody = 0 := by
    unfold tellInbound
    rw [if_pos hready]
    exact countP_tellMessages (hm.atRest hready) 0 fuel
  rw [hcount]
  rw [tellInbound_fst] at hending
  obtain ⟨hrestores, hready'⟩ :=
    restores_processInbound (Native.system_forwards hooks) hm.le_max hending hok
  exact ⟨hready', hm.restored hrestores⟩

end Runs

namespace Told

variable {told : Told σ α} {next : α → Told σ β} {hooks : HookTable σ} {fuel bound : Nat}

/-- Work that begins with at most `bound` values left and succeeds leaves one more for every return
from the body. -/
def Leaves (told : Told σ α) (bound : Nat) : Prop :=
  ∀ s n, s.1.machine.isReady = true → s.1.machine.Leaves n → n ≤ bound →
    ∀ a s', (told s).1 = some (.ok a, s') → s'.1.machine.isReady = true ∧
      s'.1.machine.Leaves (n + (told s).2.countP Moment.returnsFromBody)

/-- A change of the store leaves as many values as before. -/
theorem leaves_modify {f : Instance × World σ → Instance × World σ}
    (hf : ∀ s, ∃ store, (f s).1.machine = { s.1.machine with store := store }) :
    (silent (modify f)).Leaves bound := by
  intro s n hready hm _ a s' heq
  cases heq
  obtain ⟨store, hstore⟩ := hf s
  rw [hstore]
  exact ⟨hready, hm.frames, hm.size, hm.le⟩

/-- A change of what is known about the script leaves the machine as it is. -/
theorem leaves_modify_bind {f : Instance × World σ → Instance × World σ}
    {next : PUnit → Told σ β} (hf : ∀ s, (f s).1.machine = s.1.machine)
    (hnext : (next ⟨⟩).Leaves bound) : (silent (modify f) >>= next).Leaves bound := by
  intro s n hready hm hle
  have hnext := hnext (f s) n
  rw [hf s] at hnext
  exact hnext hready hm hle

/-- An entry leaves what its telling leaves. -/
theorem leaves_enter {f : Machine Native → World σ → Telling σ α}
    (hf : ∀ m w n, m.isReady = true → m.Leaves n → n ≤ bound → (f m w).Leaves n) :
    (enter f).Leaves bound := by
  intro (i, w) n hready hm hle a s' heq
  obtain ⟨ending, hending, heq⟩ := Option.map_eq_some_iff.mp heq
  obtain ⟨hresult, hs'⟩ := Prod.mk.inj heq
  subst hs'
  exact hf i.machine w n hready hm hle ending a hending hresult

/-- Work after which at most one value is left may be followed by more work. -/
theorem Leaves.bind (h : told.Leaves bound) (hnext : ∀ a, (next a).Leaves 1) :
    (told >>= next).Leaves bound := by
  intro s n hready hm hle b s' heq
  have hfirst := h s n hready hm hle
  change ((told.andThen next) s).1 = _ at heq
  change _ ∧ s'.1.machine.Leaves (n + ((told.andThen next) s).2.countP _)
  unfold andThen at *
  cases htold : told s with
  | mk answer moments =>
    rw [htold] at hfirst heq
    match answer with
    | none => cases heq
    | some (.error e, s₁) => cases heq
    | some (.ok a, s₁) =>
      obtain ⟨hready₁, hm₁⟩ := hfirst a s₁ rfl
      obtain ⟨hready', hm'⟩ := hnext a s₁ _ hready₁ hm₁ hm₁.le b s' heq
      refine ⟨hready', ?_⟩
      rw [List.countP_append, ← Nat.add_assoc]
      exact hm'

variable (hooks fuel)

/-- The first part of a turn runs the body on an empty stack. -/
theorem leaves_begin : (begin hooks fuel).Leaves 0 := by
  refine leaves_modify_bind (fun _ => rfl) ?_
  refine (leaves_enter fun m w n hready hm hn => ?_).bind fun _ =>
    (leaves_enter fun m w n hready hm _ => Machine.leaves_tellGlobal hready hm "init" w).bind
      fun _ => leaves_modify_bind (fun _ => rfl) (leaves_modify fun s => ⟨_, rfl⟩)
  obtain rfl := Nat.le_zero.mp hn
  exact Machine.leaves_tellScript hready hm w

/-- The part of a turn that every step has leaves as many values as before. -/
theorem leaves_round : (round hooks fuel).Leaves 1 :=
  (leaves_enter fun _ w _ hready hm _ => Machine.leaves_tellInbound hready hm w).bind fun _ =>
    (leaves_enter fun _ w _ hready hm _ => Machine.leaves_tellGlobal hready hm "step" w).bind
      fun _ => leaves_modify fun _ => ⟨_, rfl⟩

/-- A turn that succeeds leaves one value more for every return from the body. -/
theorem leaves_turn {s s' : Instance × World σ} {n : Nat} (hready : s.1.machine.isReady = true)
    (hm : s.1.machine.Leaves n) (hfirst : s.1.stepped = false → n = 0)
    (h : (turn hooks fuel s).1 = some (.ok (), s')) :
    s'.1.machine.Leaves (n + (turn hooks fuel s).2.countP Moment.returnsFromBody) := by
  rw [turn_apply] at h ⊢
  split at h <;> rename_i hstepped
  · rw [if_pos hstepped]
    rw [Bool.not_eq_true'] at hstepped
    have hturn := (leaves_begin hooks fuel).bind fun _ => leaves_round hooks fuel
    exact (hturn s n hready hm (Nat.le_of_eq (hfirst hstepped)) _ _ h).2
  · rw [if_neg hstepped]
    exact (leaves_round hooks fuel s n hready hm hm.le _ _ h).2

end Told

/-- If the script is ready, as many values are left on its stack; before the first step there are
none. -/
structure Instance.Carries (i : Instance) (n : Nat) : Prop where
  leaves : i.machine.isReady = true → i.machine.Leaves n
  first : i.stepped = false → n = 0

section Steps

variable {i i' : Instance} {hooks : HookTable σ} {fuel n : Nat} {w w' : World σ}

/-- A change of the store leaves what a script carries. -/
theorem Instance.Carries.withStore (h : i.Carries n) (s : Store Native) :
    Instance.Carries { i with machine := { i.machine with store := s } } n :=
  ⟨fun hready => ⟨(h.leaves hready).frames, (h.leaves hready).size, (h.leaves hready).le⟩, h.first⟩

/-- A step leaves one value for every return from the body. -/
theorem Instance.Carries.step (h : i.Carries n) (hi : i.Consistent) {outcome : StepOutcome}
    (hstep : i.step hooks fuel w = some (outcome, i', w')) :
    i'.Carries (n + (i.stepMoments hooks fuel w).countP Moment.returnsFromBody) := by
  cases hready : i.machine.isReady with
  | false =>
    rw [step_of_faulted hready] at hstep
    cases hstep
    exact ⟨fun hready' => (nomatch hready.symm.trans hready'),
      fun hfirst => nomatch (hi.stepped hready).symm.trans hfirst⟩
  | true =>
    have hstate (hstepped : i.stepped = true) : i.state = .stepped := by
      simpa [hready, hstepped] using hi.state
    have hgoes : (Watched.turn hooks fuel).Goes _ (i, w) _ _ :=
      Watched.goes_turn (hi.rest hready) hstate
    obtain ⟨_, _, hends⟩ := hgoes
    rw [Watched.work_turn] at hends
    unfold stepMoments
    unfold Instance.step at hstep
    rw [if_pos hready] at hstep ⊢
    obtain ⟨⟨result, i₁, w₁⟩, hturn, heq⟩ := Option.map_eq_some_iff.mp hstep
    cases result with
    | error e =>
      obtain ⟨_, hfalls⟩ := hends.error hturn
      cases heq
      exact ⟨fun hready' => (nomatch hfalls.faulted.symm.trans hready'),
        fun hfirst => nomatch hfalls.stepped.symm.trans hfirst⟩
    | ok _ =>
      obtain ⟨_, hgoes, _⟩ := hends.ok hturn
      cases heq
      rw [← Told.tells_turn] at hturn
      exact ⟨fun _ => Told.leaves_turn hooks fuel hready (h.leaves hready) h.first hturn,
        fun hfirst => nomatch hgoes.stepped.symm.trans hfirst⟩

end Steps

end Swarm
