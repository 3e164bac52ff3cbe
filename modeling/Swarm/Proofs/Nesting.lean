import Swarm.Proofs.Finality
import Swarm.Proofs.Frames

/-!
# Calls inside calls

A native function that waits for a call keeps its frame, in which it has nothing on the
stack. What has been called goes on in its own frame or above it until it is over; then
exactly its result lies where the stack ended when the call was made. One step keeps
this: apart from the end of the outermost activation it only works in the innermost
frame, makes one above it or ends it.
-/

namespace Swarm

/-- Frames with the same outline differ in their local symbols at most. -/
theorem Frame.eq_of_outline {f g : Frame} (h : g.outline = f.outline) :
    g.kind = f.kind ∧ g.returnPc = f.returnPc ∧ g.stackBase = f.stackBase := by
  have hkind := congrArg Frame.kind h
  have hpc := congrArg Frame.returnPc h
  have hbase := congrArg Frame.stackBase h
  exact ⟨hkind, hpc, hbase⟩

namespace Machine

variable {ν κ : Type} {m m' : Machine ν} {outer : Array Frame} {f : Frame} {returning : Bool}
  {called : Option ν} {depth base pc : Nat} {activation : Activation}
  {waiting : List (Suspended κ)}

/-- A call was made from `depth` frames and `base` values on the stack, to go on at a position
afterwards. It goes on in its frame or above, or it is over and its result is on the stack. Since
operands may be borrowed from below, the stack may have sunk, but it has not run empty. -/
inductive Nests (m : Machine ν) (depth base pc : Nat) : Prop where
  | inside {f : Frame} (hframe : m.frames[depth]? = some f) (hbase : f.stackBase = base)
      (hpc : f.returnPc = pc)
      (hkind : ∀ k g, depth ≤ k → m.frames[k]? = some g → g.kind ≠ .script)
      (hstack : m.frames.size = depth + 1 → min base 1 ≤ m.stack.size)
  | back (hsize : m.frames.size = depth) (hpc : m.pc = pc) (hlow : min base 1 < m.stack.size)
      (hhigh : m.stack.size ≤ base + 1)

/-- In the activation runs what the innermost native function that waits has called. That function
has its frame right below and nothing on the stack; further down it is the same. -/
def Houses (m : Machine ν) : Activation → List (Suspended κ) → Prop
  | _, [] => True
  | activation, s :: waiting =>
    activation.purpose = .call ∧ s.activation.stop < activation.stop ∧
      (∃ f pc, m.frames[activation.stop - 1]? = some f ∧ f.kind ≠ .script ∧
        m.Nests activation.stop f.stackBase pc) ∧
      m.Houses s.activation waiting

/-- A native function is at work in the activation: its frame is the innermost one, and it has
nothing on the stack. -/
structure Hosts (m : Machine ν) (activation : Activation) (waiting : List (Suspended κ)) :
    Prop where
  deep : activation.stop < m.frames.size
  frame : ∃ (outer : Array Frame) (f : Frame), m.frames = outer.push f ∧ f.kind ≠ .script ∧
    f.stackBase = m.stack.size
  houses : m.Houses activation waiting

/-- The frames below a nested call are still there. -/
theorem Nests.le_size (h : m.Nests depth base pc) : depth ≤ m.frames.size := by
  cases h with
  | inside hframe _ _ _ _ =>
    obtain ⟨hlt, _⟩ := Array.getElem?_eq_some_iff.mp hframe
    omega
  | back hsize _ _ _ => omega

/-- Work never changes the frames below the innermost one. -/
theorem Alters.getElem?_outer (h : m.Alters outer f returning called m') {k : Nat}
    (hk : k < outer.size) : m'.frames[k]? = outer[k]? := by
  cases h with
  | works hframes _ _ => rw [hframes, Array.getElem?_push, if_neg (by omega)]
  | enters hframes _ _ _ _ =>
    rw [hframes, Array.getElem?_push, Array.size_push, if_neg (by omega), Array.getElem?_push,
      if_neg (by omega)]
  | returns hframes _ _ | ends hframes _ _ => rw [hframes]

/-- Altering the innermost frame leaves the outer ones. -/
theorem Alters.size_le (h : m.Alters outer f returning called m') :
    outer.size ≤ m'.frames.size := by
  cases h with
  | works hframes _ _ =>
    rw [hframes, Array.size_push]
    omega
  | enters hframes _ _ _ _ =>
    rw [hframes, Array.size_push, Array.size_push]
    omega
  | returns hframes _ _ | ends hframes _ _ => rw [hframes]

/-- Work makes no frames of bodies. -/
theorem Alters.kind (h : m.Alters outer f returning called m') (hframes : m.frames = outer.push f)
    (hkind : ∀ k g, depth ≤ k → m.frames[k]? = some g → g.kind ≠ .script) :
    ∀ k g, depth ≤ k → m'.frames[k]? = some g → g.kind ≠ .script := by
  intro k g hk hg
  by_cases houter : k < outer.size
  · rw [h.getElem?_outer houter] at hg
    refine hkind k g hk ?_
    rw [hframes, Array.getElem?_push, if_neg (by omega)]
    exact hg
  have hlast (hk' : k = outer.size) : f.kind ≠ .script := by
    refine hkind k f hk ?_
    rw [hframes, hk', Array.getElem?_push_size]
  have hbound : k < m'.frames.size := (Array.getElem?_eq_some_iff.mp hg).1
  cases h with
  | @works _ g' hframes' hsame _ =>
    rw [hframes', Array.size_push] at hbound
    have hk' : k = outer.size := by omega
    rw [hframes', hk', Array.getElem?_push_size] at hg
    cases hg
    exact (Frame.eq_of_outline hsame).1 ▸ hlast hk'
  | enters hframes' hnew _ _ _ =>
    rw [hframes', Array.size_push, Array.size_push] at hbound
    rw [hframes', Array.getElem?_push, Array.size_push] at hg
    split at hg
    · cases hg
      exact hnew
    · have hk' : k = outer.size := by omega
      rw [hk', Array.getElem?_push_size] at hg
      cases hg
      exact hlast hk'
  | returns hframes' _ _ | ends hframes' _ _ =>
    rw [hframes'] at hbound
    omega

/-- Work inside a call leads on inside the call or to its end. -/
theorem Alters.nests (h : m.Alters outer f returning called m') (hframes : m.frames = outer.push f)
    (hdeep : depth ≤ outer.size) (hm : m.Nests depth base pc) : m'.Nests depth base pc := by
  have hcount : m.frames.size = outer.size + 1 := by rw [hframes, Array.size_push]
  cases hm with
  | back hsize _ _ _ => omega
  | @inside g hframe hbase hpc hkind hstack =>
    have hkind' := h.kind hframes hkind
    by_cases hlower : depth < outer.size
    · -- The frame of the call is not the innermost one, so it stays.
      have hframe' : m'.frames[depth]? = some g := by
        rw [h.getElem?_outer hlower, ← hframe, hframes, Array.getElem?_push, if_neg (by omega)]
      refine .inside hframe' hbase hpc hkind' fun hlast => ?_
      cases h with
      | works hframes' _ _ =>
        rw [hframes', Array.size_push] at hlast
        omega
      | enters hframes' _ _ _ _ =>
        rw [hframes', Array.size_push, Array.size_push] at hlast
        omega
      | returns _ _ hsize => omega
      | ends _ hscript _ =>
        refine absurd hscript (hkind outer.size f (by omega) ?_)
        rw [hframes, Array.getElem?_push_size]
    · have hlast : depth = outer.size := by omega
      subst hlast
      rw [hframes, Array.getElem?_push_size] at hframe
      cases hframe
      have hlow := hstack hcount
      cases h with
      | @works _ g' hframes' hsame hsize =>
        obtain ⟨_, hpc', hbase'⟩ := Frame.eq_of_outline hsame
        refine .inside ?_ (hbase'.trans hbase) (hpc'.trans hpc) hkind' fun _ => by omega
        rw [hframes', Array.getElem?_push_size]
      | enters hframes' _ _ _ _ =>
        refine .inside ?_ hbase hpc hkind' fun hlast => ?_
        · rw [hframes', Array.getElem?_push, Array.size_push, if_neg (by omega),
            Array.getElem?_push_size]
        · rw [hframes', Array.size_push, Array.size_push] at hlast
          omega
      | returns hframes' hpc' hsize =>
        exact .back (congrArg Array.size hframes') (hpc'.trans hpc) (by omega) (by omega)
      | ends _ hscript _ =>
        refine absurd hscript (hkind outer.size f (Nat.le_refl _) ?_)
        rw [hframes, Array.getElem?_push_size]

/-- Work above the frames of the native functions that wait changes nothing for them. -/
theorem Alters.houses (h : m.Alters outer f returning called m') (hframes : m.frames = outer.push f)
    (hdeep : activation.stop ≤ outer.size) (hm : m.Houses activation waiting) :
    m'.Houses activation waiting := by
  induction waiting generalizing activation with
  | nil => trivial
  | cons s waiting ih =>
    obtain ⟨hpurpose, hlt, ⟨g, pc, hframe, hkind, hnests⟩, hrest⟩ := hm
    refine ⟨hpurpose, hlt, ⟨g, pc, ?_, hkind, h.nests hframes hdeep hnests⟩, ih (by omega) hrest⟩
    rw [h.getElem?_outer (by omega), ← hframe, hframes, Array.getElem?_push, if_neg (by omega)]

/-- The outermost activation has the least frames below it. -/
theorem Houses.outermost_le (h : m.Houses activation waiting) :
    (Execution.outermost activation waiting).stop ≤ activation.stop := by
  induction waiting generalizing activation with
  | nil => exact Nat.le_refl _
  | cons s waiting ih =>
    obtain ⟨_, hlt, _, hrest⟩ := h
    exact Nat.le_trans (ih hrest) (Nat.le_of_lt hlt)

/-- Where the frames of an activation are gone for which a native function waits, nothing but the
result of the call lies above the base of the native function. -/
theorem Houses.exists_frame {s : Suspended κ} {rest : List (Suspended κ)}
    (h : m.Houses activation (s :: rest)) (hsize : m.frames.size = activation.stop) :
    ∃ (outer : Array Frame) (f : Frame), m.frames = outer.push f ∧ f.kind ≠ .script ∧
      m.stack.size ≤ f.stackBase + 1 ∧ s.activation.stop ≤ outer.size := by
  obtain ⟨_, hlt, ⟨f, pc, hframe, hkind, hnests⟩, _⟩ := h
  have hframed : m.frames.size ≠ 0 := by omega
  obtain ⟨outer, g, hframes⟩ := Array.eq_push_of_size_ne_zero hframed
  have hcount : m.frames.size = outer.size + 1 := by rw [hframes, Array.size_push]
  have hlast : activation.stop - 1 = outer.size := by omega
  rw [hframes, hlast, Array.getElem?_push_size] at hframe
  cases hframe
  refine ⟨outer, f, hframes, hkind, ?_, by omega⟩
  cases hnests with
  | inside hframe =>
    rw [← hsize, Array.getElem?_eq_none (Nat.le_refl _)] at hframe
    cases hframe
  | back _ _ _ hhigh => exact hhigh

/-- What a native function calls has a frame of its own above that of its caller. -/
theorem Hosts.opens {s : Suspended κ} {g : Frame} (h : m.Hosts s.activation waiting)
    (hopens : m.Opens g m') : m'.Houses ⟨m.frames.size, .call⟩ (s :: waiting) := by
  obtain ⟨outer, f, hpush, hnative, hempty⟩ := h.frame
  have hcount : m.frames.size = outer.size + 1 := by rw [hpush, Array.size_push]
  have hdeep := h.deep
  have hnests : m'.Nests m.frames.size f.stackBase g.returnPc := by
    refine .inside (f := g) ?_ (hopens.base.trans hempty.symm) rfl (fun k g' hk hg' => ?_)
      fun _ => ?_
    · rw [hopens.frames, Array.getElem?_push_size]
    · rw [hopens.frames, Array.getElem?_push] at hg'
      split at hg'
      · cases hg'
        exact hopens.kind
      · rw [Array.getElem?_eq_none hk] at hg'
        cases hg'
    · rw [hopens.size, hempty]
      exact Nat.min_le_left _ _
  refine ⟨rfl, hdeep, ⟨f, g.returnPc, ?_, hnative, hnests⟩,
    (hopens.alters hpush).houses hpush (by omega) h.houses⟩
  dsimp only
  rw [hopens.frames, hpush, Array.size_push, Nat.add_sub_cancel, Array.getElem?_push,
    Array.size_push, if_neg (by omega), Array.getElem?_push_size]

/-- How calls nest depends on frames, stack and position alone. -/
theorem Nests.congr (h : m.Nests depth base pc) (hframes : m'.frames = m.frames)
    (hstack : m'.stack = m.stack) (hpc : m'.pc = m.pc) : m'.Nests depth base pc := by
  cases h with
  | inside hframe hbase hpc' hkind hlow =>
    exact .inside (hframes ▸ hframe) hbase hpc' (hframes ▸ hkind) (hframes ▸ hstack ▸ hlow)
  | back hsize hpc' hlow hhigh =>
    exact .back (hframes ▸ hsize) (hpc.trans hpc') (hstack ▸ hlow) (hstack ▸ hhigh)

/-- What a machine houses depends on frames, stack and position alone. -/
theorem Houses.congr (h : m.Houses activation waiting) (hframes : m'.frames = m.frames)
    (hstack : m'.stack = m.stack) (hpc : m'.pc = m.pc) : m'.Houses activation waiting := by
  induction waiting generalizing activation with
  | nil => trivial
  | cons s waiting ih =>
    obtain ⟨hpurpose, hlt, ⟨f, pc, hframe, hkind, hnests⟩, hrest⟩ := h
    exact ⟨hpurpose, hlt, ⟨f, pc, hframes ▸ hframe, hkind, hnests.congr hframes hstack hpc⟩,
      ih hrest⟩

/-- What a machine hosts depends on frames, stack and position alone. -/
theorem Hosts.congr (h : m.Hosts activation waiting) (hframes : m'.frames = m.frames)
    (hstack : m'.stack = m.stack) (hpc : m'.pc = m.pc) : m'.Hosts activation waiting :=
  ⟨hframes ▸ h.deep, hframes ▸ hstack ▸ h.frame, h.houses.congr hframes hstack hpc⟩

end Machine

namespace Execution

variable {ν κ σ : Type} {sys : NativeSystem ν κ σ} {m m' : Machine ν} {w : World σ}
  {activation : Activation} {waiting : List (Suspended κ)} {origin : Option Nat} {low : Nat}
  {returning : Bool} {e e' : Execution ν κ σ}

/-- While instructions are carried out the machine houses what native functions have called; while a
native function is at work it hosts that function. Nothing is said about an activation that is left
with an error. -/
def Poised (e : Execution ν κ σ) : Prop :=
  match e.phase with
  | .running =>
    e.activation.stop ≤ e.machine.frames.size ∧ e.machine.Houses e.activation e.waiting
  | .entering _ _ => e.machine.Hosts e.activation e.waiting
  | .leaving (.ok _) => ∀ s rest, e.waiting = s :: rest → e.machine.Hosts s.activation rest
  | .leaving (.error _) => True

/-- Neither is the outermost activation over nor is an activation left with an error. -/
def Ongoing (e : Execution ν κ σ) : Prop :=
  ∀ result, e.phase = .leaving result → e.waiting ≠ [] ∧ ∃ v, result = .ok v

/-- An activation is left with an error, and no frame has been made. -/
structure Fails (m : Machine ν) (e : Execution ν κ σ) : Prop where
  phase : ∃ error, e.phase = .leaving (.error error)
  size : e.machine.frames.size ≤ m.frames.size

/-- The machine has been altered in its innermost frame, above the lowest ones, and the execution
goes on, or it fails. Only an instruction ends the frame of a body with a result. -/
inductive Furthers (m : Machine ν) (low : Nat) (returning : Bool) (e : Execution ν κ σ) : Prop where
  | alters {outer : Array Frame} {f : Frame} {ends : Bool} {called : Option ν}
      (hframes : m.frames = outer.push f) (hdeep : low ≤ outer.size)
      (hreturning : f.kind = .script → ends = returning)
      (h : m.Alters outer f ends called e.machine)
      (hgoes : e.Ongoing)
  | fails (h : e.Fails m)

/-- How a call begins: it fails, or it makes a frame. -/
inductive Opens (m : Machine ν) (w : World σ) (waiting : List (Suspended κ)) :
    Execution ν κ σ → Prop where
  | opens {m' : Machine ν} {g : Frame} {phase : Phase ν} (h : m.Opens g m')
      (hphase : ∀ result, phase ≠ .leaving result) :
      Opens m w waiting ⟨m', w, ⟨m.frames.size, .call⟩, phase, waiting⟩
  | fails {e : Execution ν κ σ} (h : e.Fails m) : Opens m w waiting e

/-- What a step from the one execution to the other does to its machine: the outermost activation is
over or ends, an activation fails, or the machine is altered above the outermost one. -/
inductive Goes (e e' : Execution ν κ σ) : Prop where
  | stays (hphase : ∃ result, e.phase = .leaving result) (hwaiting : e.waiting = []) (h : e' = e)
  | closes (hphase : e.phase = .running) (hwaiting : e.waiting = [])
      (hstop : e.machine.frames.size = e.activation.stop)
      (h : e' = close e.machine e.world e.activation [])
  | unwinds (h : e'.Fails e.machine)
  | furthers (hgoes : e.Ongoing) (h : e'.Furthers e.machine
      (outermost e.activation e.waiting).stop (e.instruction?.any Instruction.isReturn))

/-- An activation is not being left. -/
theorem ongoing_of_ne (h : ∀ result, e.phase ≠ .leaving result) : e.Ongoing :=
  fun result hresult => absurd hresult (h result)

/-- While instructions are carried out an execution is ongoing. -/
theorem ongoing_running :
    (⟨m, w, activation, .running, waiting⟩ : Execution ν κ σ).Ongoing :=
  ongoing_of_ne nofun

/-- While a native function begins an execution is ongoing. -/
theorem ongoing_entering (native : ν) (origin : Option Nat) :
    (⟨m, w, activation, .entering native origin, waiting⟩ : Execution ν κ σ).Ongoing :=
  ongoing_of_ne nofun

/-- A native function goes on with a result. -/
theorem ongoing_of_ok (s : Suspended κ) (v : Value) :
    (⟨m, w, activation, .leaving (.ok v), s :: waiting⟩ : Execution ν κ σ).Ongoing := by
  intro result h
  cases h
  exact ⟨nofun, v, rfl⟩

/-- What is furthered depends on frames, stack and limits alone. -/
theorem Furthers.congr (h : e.Furthers m' low returning) (hframes : m'.frames = m.frames)
    (hstack : m'.stack = m.stack) (hlimits : m'.limits = m.limits) :
    e.Furthers m low returning := by
  cases h with
  | alters hpush hdeep hreturning halters hgoes =>
    exact .alters (hframes ▸ hpush) hdeep hreturning (halters.congr hframes hstack hlimits) hgoes
  | fails h => exact .fails ⟨h.phase, hframes ▸ h.size⟩

/-- A failure leaves the frames as they are. -/
theorem fails_fail (hsize : m'.frames.size ≤ m.frames.size) (pc : Nat) (error : RuntimeError) :
    (fail m' w activation waiting pc error).Fails m := by
  have hframes : (m'.recordFault pc error).frames = m'.frames := by
    unfold Machine.recordFault
    split <;> rfl
  exact ⟨⟨error, rfl⟩, hframes ▸ hsize⟩

/-- Nothing that goes on is left with an error. -/
theorem Fails.not_ongoing (h : e.Fails m) : ¬e.Ongoing := by
  intro hgoes
  obtain ⟨error, hphase⟩ := h.phase
  obtain ⟨_, v, hv⟩ := hgoes _ hphase
  cases hv

/-- An activation that is left with an error is poised for anything. -/
theorem Fails.poised (h : e.Fails m) : e.Poised := by
  obtain ⟨error, hphase⟩ := h.phase
  unfold Poised
  rw [hphase]
  trivial

/-- A failure furthers every machine. -/
theorem Fails.furthers (h : e.Fails m) : e.Poised ∧ e.Furthers m low returning :=
  ⟨h.poised, .fails h⟩

/-- A call makes its frame or fails. -/
theorem opens_startCall (m : Machine ν) (w : World σ) (waiting : List (Suspended κ))
    (callee : Value) (arguments : List Value) :
    Opens m w waiting (startCall m w waiting callee arguments) := by
  have hpush := Machine.opens_pushCall callee arguments m
  unfold Action.Ends at hpush
  unfold startCall
  dsimp only
  split
  · split <;> rename_i heq <;> rw [heq] at hpush
    · obtain ⟨g, hg⟩ := hpush
      exact .opens hg nofun
    · obtain ⟨g, hg⟩ := hpush
      exact .opens hg nofun
    · exact .fails (fails_fail (Nat.le_of_eq (congrArg Array.size hpush)) _ _)
  · exact .fails ⟨⟨_, rfl⟩, Nat.le_refl _⟩

/-- A call that begins is poised if what waits for it is housed, its own frame included. -/
theorem Opens.poised (h : Opens m w waiting e)
    (hhouses : ∀ (g : Frame) m', m.Opens g m' → m'.Houses ⟨m.frames.size, .call⟩ waiting) :
    e.Poised := by
  cases h with
  | fails h => exact h.poised
  | @opens m' g phase hopens hphase =>
    have hsize : m'.frames.size = m.frames.size + 1 := by rw [hopens.frames, Array.size_push]
    have hhouses := hhouses g m' hopens
    cases phase with
    | running => exact ⟨hsize ▸ Nat.le_succ _, hhouses⟩
    | entering native origin =>
      exact ⟨hsize ▸ Nat.lt_succ_self _,
        ⟨_, g, hopens.frames, hopens.kind, hopens.base.trans hopens.size.symm⟩, hhouses⟩
    | leaving result => exact absurd rfl (hphase result)

/-- A call of an idle machine. -/
theorem poised_startCall (m : Machine ν) (w : World σ) (callee : Value) (arguments : List Value) :
    (startCall m w [] callee arguments : Execution ν κ σ).Poised :=
  (opens_startCall m w [] callee arguments).poised fun _ _ _ => trivial

/-- The body of the script starts poised. -/
theorem poised_startScript (m : Machine ν) (w : World σ) :
    (startScript m w [] : Execution ν κ σ).Poised := by
  unfold startScript
  dsimp only
  split
  · exact ⟨Nat.zero_le _, trivial⟩
  · trivial

/-- A native function that makes no body run is followed. -/
theorem poised_follow {move : Move κ} (hmove : ∀ rest, move ≠ .runScript rest)
    (h : m.Hosts activation waiting) (w : World σ) (origin : Option Nat) (returning : Bool) :
    (follow m w activation waiting origin move).Poised ∧
      (follow m w activation waiting origin move).Furthers m (outermost activation waiting).stop
        returning := by
  obtain ⟨outer, f, hframes, hkind, _⟩ := h.frame
  have hdeep : activation.stop ≤ outer.size := by
    have hdeep := h.deep
    rw [hframes, Array.size_push] at hdeep
    exact Nat.le_of_lt_succ hdeep
  have hlow := Nat.le_trans h.houses.outermost_le hdeep
  match move with
  | .finish (.ok v) =>
    have hret := Machine.alters_ret v hframes
    unfold Action.Ends at hret
    simp only [follow]
    split <;> rename_i heq <;> rw [heq] at hret
    · exact ⟨⟨Nat.le_trans hdeep hret.size_le, hret.houses hframes hdeep h.houses⟩,
        .alters hframes hlow (fun hscript => absurd hscript hkind) hret ongoing_running⟩
    · exact (fails_fail hret _ _).furthers
  | .finish (.error error) => exact (fails_fail (Nat.le_refl m.frames.size) _ _).furthers
  | .call callee arguments rest =>
    have hopens := opens_startCall m w (⟨activation, origin, rest⟩ :: waiting) callee arguments
    refine ⟨hopens.poised fun g m' hg => ?_, ?_⟩
    · exact Machine.Hosts.opens (s := ⟨activation, origin, rest⟩) h hg
    · simp only [follow]
      generalize startCall m w _ callee arguments = e at hopens
      cases hopens with
      | opens hg hphase =>
        exact .alters hframes hlow (fun hscript => absurd hscript hkind) (hg.alters hframes)
          (ongoing_of_ne hphase)
      | fails hfails => exact .fails hfails
  | .runScript rest => exact absurd rfl (hmove rest)

/-- Ending an activation makes and leaves no frame. -/
theorem frames_close :
    (close m w activation waiting : Execution ν κ σ).machine.frames = m.frames := by
  have hpop : Action.Ends Machine.pop m (fun _ m' => m'.frames = m.frames)
      fun _ m' => m'.frames = m.frames :=
    Machine.ends_pop (fun _ _ _ _ => rfl) fun _ => rfl
  unfold Action.Ends at hpop
  unfold close
  split
  · rfl
  · split <;> rename_i heq <;> rw [heq] at hpop <;> exact hpop

/-- Where nobody waits the execution is over with the outermost activation. -/
theorem not_ongoing_close : ¬(close m w activation [] : Execution ν κ σ).Ongoing := by
  intro hgoes
  unfold close at hgoes
  split at hgoes
  · exact (hgoes _ rfl).1 rfl
  · split at hgoes <;> exact (hgoes _ rfl).1 rfl

/-- An activation ends. The native function that waits for it has its result taken from the stack,
on which then it has nothing again. -/
theorem poised_close (hsize : m.frames.size = activation.stop)
    (hhouses : m.Houses activation waiting) :
    (close m w activation waiting : Execution ν κ σ).Poised ∧ (waiting ≠ [] →
      (close m w activation waiting).Furthers m (outermost activation waiting).stop false) := by
  cases waiting with
  | nil =>
    refine ⟨?_, fun hne => absurd rfl hne⟩
    unfold close
    split
    · exact fun _ _ h => nomatch h
    · split
      · exact fun _ _ h => nomatch h
      · trivial
  | cons s rest =>
    obtain ⟨outer, f, hframes, hkind, hhigh, hdeep⟩ := hhouses.exists_frame hsize
    obtain ⟨hpurpose, _, _, hrest⟩ := hhouses
    have hlow := Nat.le_trans hrest.outermost_le hdeep
    have hpop : Action.Ends Machine.pop m
        (fun _ m' => m.Alters outer f false (none : Option ν) m' ∧ m'.frames = m.frames ∧
          m'.stack.size = f.stackBase)
        fun _ m' => m' = m := by
      refine Machine.ends_pop (fun stack v hstack hfloor => ?_) fun _ => rfl
      rw [Machine.stackFloor_of_frames hframes] at hfloor
      rw [hstack, Array.size_push] at hhigh
      refine ⟨.works hframes rfl (Nat.le_trans (Nat.min_le_right _ _) hfloor), rfl, ?_⟩
      dsimp only
      omega
    unfold Action.Ends at hpop
    unfold close
    rw [hpurpose]
    dsimp only
    split <;> rename_i heq <;> rw [heq] at hpop
    · obtain ⟨halters, hsame, hbase⟩ := hpop
      refine ⟨fun s' rest' h => ?_,
        fun _ => .alters hframes hlow (fun _ => rfl) halters (ongoing_of_ok _ _)⟩
      cases h
      refine ⟨?_, ⟨outer, f, hsame.trans hframes, hkind, hbase.symm⟩,
        halters.houses hframes hdeep hrest⟩
      rw [hsame, hframes, Array.size_push]
      omega
    · exact ⟨trivial, fun _ => .fails ⟨⟨_, rfl⟩, hpop ▸ Nat.le_refl _⟩⟩

/-- An instruction is carried out in a frame above those of the activations below. -/
theorem poised_advance (hdeep : activation.stop < m.frames.size)
    (hhouses : m.Houses activation waiting) :
    (advance m w activation waiting : Execution ν κ σ).Poised ∧
      (advance m w activation waiting : Execution ν κ σ).Furthers m
        (outermost activation waiting).stop
        ((m.program.code.decodeAt m.pc).toOption.any Instruction.isReturn) := by
  have hframed : m.frames.size ≠ 0 := by omega
  obtain ⟨outer, f, hframes⟩ := Array.eq_push_of_size_ne_zero hframed
  have hcount : m.frames.size = outer.size + 1 := by rw [hframes, Array.size_push]
  have hstop : activation.stop ≤ outer.size := by omega
  have hlow := Nat.le_trans hhouses.outermost_le hstop
  cases hdecode : m.program.code.decodeAt m.pc with
  | error error =>
    have hread : (get : Action ν (Machine ν)) m = .ok m m := rfl
    have hfails : Machine.executeNext m = .error (.decode error) m := by
      unfold Machine.executeNext
      rw [Action.bind_ok hread, hdecode]
      rfl
    unfold advance
    dsimp only
    rw [hfails]
    exact (fails_fail (Nat.le_refl m.frames.size) _ _).furthers
  | ok i =>
    have halters := Machine.alters_executeNext hdecode hframes
    unfold Action.Ends at halters
    unfold advance
    dsimp only
    split <;> rename_i heq <;> rw [heq] at halters
    · exact ⟨⟨Nat.le_trans hstop halters.size_le, halters.houses hframes hstop hhouses⟩,
        .alters hframes hlow (fun _ => rfl) halters ongoing_running⟩
    · refine ⟨?_, .alters hframes hlow (fun _ => rfl) halters (ongoing_entering _ _)⟩
      have hkept := halters.houses hframes hstop hhouses
      generalize i.isReturn = ends at halters
      cases halters with
      | enters hframes' hkind hbase _ _ =>
        have hsize := congrArg Array.size hframes'
        rw [Array.size_push, Array.size_push] at hsize
        exact ⟨hsize ▸ Nat.lt_succ_of_le (Nat.le_succ_of_le hstop),
          ⟨_, _, hframes', hkind, hbase⟩, hkept⟩
    · exact (fails_fail halters _ _).furthers

/-- What one step does, and that it leads from a poised execution to a poised one. -/
theorem Poised.step (hsys : sys.Forwards) (h : e.Poised) :
    (e.step sys).Poised ∧ e.Goes (e.step sys) := by
  match e with
  | ⟨m, w, activation, .running, waiting⟩ =>
    obtain ⟨hsize, hhouses⟩ := h
    dsimp only at hsize hhouses
    simp only [Execution.step]
    split
    · rename_i hdeep
      obtain ⟨hpoised, hfurthers⟩ := poised_advance (w := w) hdeep hhouses
      refine ⟨hpoised, .furthers ongoing_running ?_⟩
      unfold instruction?
      dsimp only
      rw [if_pos hdeep]
      exact hfurthers
    · rename_i hstop
      obtain ⟨hpoised, hfurthers⟩ := poised_close (w := w) (by omega) hhouses
      refine ⟨hpoised, ?_⟩
      cases waiting with
      | nil =>
        have hsame : m.frames.size = activation.stop := by omega
        exact .closes rfl rfl hsame rfl
      | cons s rest =>
        refine .furthers ongoing_running ?_
        unfold instruction?
        dsimp only
        rw [if_neg hstop]
        exact hfurthers (List.cons_ne_nil s rest)
  | ⟨m, w, activation, .entering native origin, waiting⟩ =>
    have hhosts : m.Hosts activation waiting := h
    let reply := sys.enter native m w
    have hreply : Machine.Hosts { m with store := reply.store } activation waiting :=
      hhosts.congr rfl rfl rfl
    obtain ⟨hpoised, hfurthers⟩ :=
      poised_follow (hsys.enter native m w) hreply reply.world origin false
    exact ⟨hpoised, .furthers (ongoing_entering native origin) (hfurthers.congr rfl rfl rfl)⟩
  | ⟨m, w, _, .leaving (.ok v), ⟨activation, origin, rest⟩ :: waiting⟩ =>
    have hhosts : m.Hosts activation waiting := h _ _ rfl
    let reply := sys.resume rest (.ok v) m w
    have hreply : Machine.Hosts { m with store := reply.store } activation waiting :=
      hhosts.congr rfl rfl rfl
    obtain ⟨hpoised, hfurthers⟩ :=
      poised_follow (hsys.resume rest (.ok v) m w) hreply reply.world origin false
    exact ⟨hpoised, .furthers (ongoing_of_ok _ _) (hfurthers.congr rfl rfl rfl)⟩
  | ⟨m, w, _, .leaving (.error error), ⟨activation, origin, rest⟩ :: waiting⟩ =>
    obtain ⟨error', hmove⟩ := hsys.error rest error m w
    let reply := sys.resume rest (.error error) m w
    have hsize : Array.size { m with store := reply.store }.frames ≤ m.frames.size := Nat.le_refl _
    simp only [Execution.step, hmove, follow]
    exact ⟨trivial, .unwinds (fails_fail hsize _ _)⟩
  | ⟨m, w, activation, .leaving result, []⟩ => exact ⟨h, .stays ⟨result, rfl⟩ rfl rfl⟩

/-- A native function that does not end with an error is at work, and is followed. -/
theorem Poised.exists_hosts (hsys : sys.Forwards) (h : e.Poised) {reply : Reply ν κ σ}
    (hreply : e.reply? sys = some reply) (hmove : ∀ error, reply.move ≠ .finish (.error error)) :
    ∃ activation waiting origin, e.machine.Hosts activation waiting ∧ e.Ongoing ∧
      e.step sys = follow { e.machine with store := reply.store } reply.world activation waiting
        origin reply.move := by
  match e with
  | ⟨m, w, activation, .running, waiting⟩ => cases hreply
  | ⟨m, w, activation, .entering native origin, waiting⟩ =>
    cases hreply
    exact ⟨activation, waiting, origin, h, ongoing_entering native origin, rfl⟩
  | ⟨m, w, _, .leaving (.ok v), ⟨activation, origin, rest⟩ :: waiting⟩ =>
    cases hreply
    exact ⟨activation, waiting, origin, h _ _ rfl, ongoing_of_ok _ _, rfl⟩
  | ⟨m, w, _, .leaving (.error error), ⟨activation, origin, rest⟩ :: waiting⟩ =>
    cases hreply
    obtain ⟨error', hforward⟩ := hsys.error rest error m w
    exact absurd hforward (hmove error')
  | ⟨m, w, activation, .leaving result, []⟩ => cases hreply

/-- A call leaves the outermost activation as it is, if there is one below it. -/
theorem outermost_startCall (callee : Value) (arguments : List Value) :
    outermost (startCall m w waiting callee arguments : Execution ν κ σ).activation
      (startCall m w waiting callee arguments : Execution ν κ σ).waiting =
        outermost ⟨m.frames.size, .call⟩ waiting := by
  unfold startCall
  dsimp only
  split
  · split <;> rfl
  · rfl

/-- What a native function asks for leaves the outermost activation as it is. -/
theorem outermost_follow (origin : Option Nat) (move : Move κ) :
    outermost (follow m w activation waiting origin move).activation
      (follow m w activation waiting origin move).waiting = outermost activation waiting := by
  match move with
  | .finish (.ok v) =>
    simp only [follow]
    split <;> rfl
  | .finish (.error error) => rfl
  | .call callee arguments rest => exact outermost_startCall callee arguments
  | .runScript rest =>
    simp only [follow, startScript]
    split <;> rfl

/-- The outermost activation stays the same. -/
theorem outermost_step (sys : NativeSystem ν κ σ) (e : Execution ν κ σ) :
    outermost (e.step sys).activation (e.step sys).waiting =
      outermost e.activation e.waiting := by
  match e with
  | ⟨m, w, activation, .running, waiting⟩ =>
    simp only [Execution.step]
    split
    · unfold advance
      dsimp only
      split <;> rfl
    · unfold close
      split
      · rfl
      · split <;> rfl
  | ⟨m, w, activation, .entering native origin, waiting⟩ => exact outermost_follow _ _
  | ⟨m, w, _, .leaving result, ⟨activation, origin, rest⟩ :: waiting⟩ => exact outermost_follow _ _
  | ⟨m, w, activation, .leaving result, []⟩ => rfl

/-- An execution stays poised along its steps. -/
theorem Poised.passes (hsys : sys.Forwards) (h : e.Poised) (hpasses : e.Passes sys e') :
    e'.Poised :=
  hpasses.preserves (fun _ he => (he.step hsys).1) h

end Execution

namespace Machine

variable {ν κ σ : Type} {sys : NativeSystem ν κ σ} {m₀ m m' : Machine ν} {outer : Array Frame}
  {f : Frame} {returning : Bool} {called : Option ν}

/-- Calls in progress, size of the stack and position are the same. -/
structure Restores (m m' : Machine ν) : Prop where
  frames : m'.frames = m.frames
  size : m'.stack.size = m.stack.size
  pc : m'.pc = m.pc

/-- Every machine restores itself. -/
theorem Restores.refl : m.Restores m := ⟨rfl, rfl, rfl⟩

/-- What has been restored twice is restored. -/
theorem Restores.trans (h : m₀.Restores m) (h' : m.Restores m') : m₀.Restores m' :=
  ⟨h'.frames.trans h.frames, h'.size.trans h.size, h'.pc.trans h.pc⟩

/-- A call made from the first machine goes on in the second one, or its result is there. The frames
of the first machine are still there. -/
structure Covers (m₀ m : Machine ν) : Prop where
  frames : ∀ k < m₀.frames.size, m.frames[k]? = m₀.frames[k]?
  nests : m.Nests m₀.frames.size m₀.stack.size m₀.pc

/-- Altering the innermost frame above those of a call leaves the call covered. -/
theorem Alters.covers (h : m.Alters outer f returning called m')
    (hframes : m.frames = outer.push f) (hdeep : m₀.frames.size ≤ outer.size)
    (hm : m₀.Covers m) : m₀.Covers m' := by
  refine ⟨fun k hk => ?_, h.nests hframes hdeep hm.nests⟩
  rw [h.getElem?_outer (by omega), ← hm.frames k hk, hframes, Array.getElem?_push,
    if_neg (by omega)]

/-- A call that has made its frame is covered. -/
theorem Opens.covers {g : Frame} (h : m₀.Opens g m) : m₀.Covers m := by
  refine ⟨fun k hk => ?_, .inside (f := g) ?_ h.base h.returnPc (fun k g' hk hg' => ?_) fun _ => ?_⟩
  · rw [h.frames, Array.getElem?_push, if_neg (by omega)]
  · rw [h.frames, Array.getElem?_push_size]
  · rw [h.frames, Array.getElem?_push] at hg'
    split at hg'
    · cases hg'
      exact h.kind
    · rw [Array.getElem?_eq_none hk] at hg'
      cases hg'
  · rw [h.size]
    exact Nat.min_le_left _ _

/-- When the call is over and its result has been taken, everything is as before it, provided that
the caller has nothing on the stack or at most one value lies there. -/
theorem Covers.restores (h : m₀.Covers m) (hsize : m.frames.size = m₀.frames.size)
    (hempty : m₀.stack.size ≤ max 1 m₀.stackFloor) :
    Action.Ends pop m (fun _ m' => m₀.Restores m') fun _ _ => True := by
  have hframes : m.frames = m₀.frames := by
    refine Array.ext_getElem? fun k => ?_
    by_cases hk : k < m₀.frames.size
    · exact h.frames k hk
    · rw [Array.getElem?_eq_none (by omega), Array.getElem?_eq_none (by omega)]
  have hfloor : m.stackFloor = m₀.stackFloor := by
    unfold stackFloor
    rw [hframes]
  refine ends_pop (fun stack v hstack hlow => ?_) fun _ => trivial
  cases h.nests with
  | inside hframe =>
    rw [← hsize, Array.getElem?_eq_none (Nat.le_refl _)] at hframe
    cases hframe
  | back _ hpc hlow' hhigh =>
    rw [hstack, Array.size_push] at hlow' hhigh
    refine ⟨hframes, ?_, hpc⟩
    dsimp only
    omega

end Machine

namespace Execution

variable {ν κ σ : Type} {sys : NativeSystem ν κ σ} {m₀ m : Machine ν} {w : World σ}
  {e e' : Execution ν κ σ}

/-- The execution is that of a call made from the machine. -/
structure Answers (m₀ : Machine ν) (e : Execution ν κ σ) : Prop where
  base : outermost e.activation e.waiting = ⟨m₀.frames.size, .call⟩
  ongoing : e.Ongoing → m₀.Covers e.machine
  done : e.waiting = [] → ∀ v, e.phase = .leaving (.ok v) → m₀.Restores e.machine

/-- A call from a machine answers it at its start. -/
theorem answers_startCall (m : Machine ν) (w : World σ) (callee : Value) (arguments : List Value) :
    (startCall m w [] callee arguments : Execution ν κ σ).Answers m := by
  have hbase : outermost (startCall m w [] callee arguments : Execution ν κ σ).activation
      (startCall m w [] callee arguments : Execution ν κ σ).waiting = ⟨m.frames.size, .call⟩ :=
    outermost_startCall callee arguments
  have hopens := opens_startCall m w ([] : List (Suspended κ)) callee arguments
  generalize startCall m w [] callee arguments = e at hbase hopens
  refine ⟨hbase, fun hgoes => ?_, fun _ v hv => ?_⟩
  · cases hopens with
    | opens h _ => exact h.covers
    | fails h => exact absurd hgoes h.not_ongoing
  · cases hopens with
    | opens _ hphase => exact absurd hv (hphase _)
    | fails h =>
      obtain ⟨error, herror⟩ := h.phase
      cases hv.symm.trans herror

/-- A step of a call that answers a machine still answers it. -/
theorem Answers.step (hempty : m₀.stack.size ≤ max 1 m₀.stackFloor) (h : e.Answers m₀)
    (hgoes : e.Goes (e.step sys)) : (e.step sys).Answers m₀ := by
  have hbase := (outermost_step sys e).trans h.base
  generalize e.step sys = e' at hgoes hbase
  have hfails (hfails : e'.Fails e.machine) : e'.Answers m₀ := by
    obtain ⟨error, herror⟩ := hfails.phase
    refine ⟨hbase, fun hgoes => absurd hgoes hfails.not_ongoing, fun _ v hv => ?_⟩
    cases hv.symm.trans herror
  cases hgoes with
  | stays hphase hwaiting h' => exact h' ▸ h
  | closes hphase hwaiting hstop h' =>
    have hactivation : e.activation = ⟨m₀.frames.size, .call⟩ := by
      rw [← h.base, hwaiting]
      rfl
    have hrunning : e.Ongoing := ongoing_of_ne (by simp [hphase])
    have hpop := (h.ongoing hrunning).restores (by rw [hstop, hactivation]) hempty
    unfold Action.Ends at hpop
    unfold close at h'
    rw [hactivation] at h'
    dsimp only at h'
    split at h' <;> rename_i heq <;> rw [heq] at hpop <;> subst h'
    · exact ⟨rfl, fun hgoes => absurd rfl (hgoes _ rfl).1, fun _ _ _ => hpop⟩
    · exact ⟨rfl, fun hgoes => absurd rfl (hgoes _ rfl).1, fun _ _ h => nomatch h⟩
  | unwinds h' => exact hfails h'
  | furthers hgoes hfurthers =>
    cases hfurthers with
    | fails h' => exact hfails h'
    | alters hframes hdeep _ halters hgoes' =>
      rw [h.base] at hdeep
      refine ⟨hbase, fun _ => halters.covers hframes hdeep (h.ongoing hgoes), ?_⟩
      exact fun hwaiting v hv => absurd hwaiting (hgoes' _ hv).1

end Execution

namespace Machine

variable {ν κ σ : Type} {sys : NativeSystem ν κ σ} {m m' : Machine ν} {w : World σ} {fuel : Nat}

/-- The values of the callers of the innermost frame are as many as before. -/
theorem Restores.stackFloor_eq (h : m.Restores m') : m'.stackFloor = m.stackFloor := by
  unfold stackFloor
  rw [h.frames]

/-- Taking a message changes the store alone. -/
theorem restores_nextDelivery {w' : World σ} {delivery : Option (Value × List Value)}
    (h : m.nextDelivery w = (delivery, m', w')) :
    m.Restores m' ∧ m'.isReady = m.isReady := by
  have hm' : (m.nextDelivery w).2.1 = m' := by rw [h]
  rw [← hm']
  exact ⟨⟨rfl, rfl, rfl⟩, rfl⟩

section Entering

variable (hsys : sys.Forwards) (hempty : m.stack.size ≤ max 1 m.stackFloor)

include hsys hempty

/-- A call that succeeds restores frames, stack and position and leaves the machine ready. -/
theorem restores_callValue {callee v : Value} {arguments : List Value} {ending : Ending ν σ Value}
    (hcall : m.callValue sys fuel callee arguments w = some ending)
    (hok : ending.result = .ok v) : m.Restores ending.machine ∧ ending.machine.isReady = true := by
  have hready := Execution.isReady_of_run_ok
    (fun _ hpasses => (Execution.unwinds_startCall callee arguments).of_forwards hsys hpasses)
    hcall hok
  obtain ⟨activation, hpasses⟩ := Execution.passes_of_run hcall
  have hboth := hpasses.preserves
    (fun e (he : e.Poised ∧ e.Answers m) =>
      ⟨(he.1.step hsys).1, he.2.step hempty (he.1.step hsys).2⟩)
    ⟨Execution.poised_startCall m w callee arguments,
      Execution.answers_startCall m w callee arguments⟩
  exact ⟨hboth.2.done rfl v (congrArg Phase.leaving hok), hready⟩

/-- A call of a global function that succeeds restores frames, stack and position. -/
theorem restores_callGlobal {name : String} {v : Value} {arguments : List Value}
    {ending : Ending ν σ Value} (hcall : m.callGlobal sys fuel name arguments w = some ending)
    (hok : ending.result = .ok v) : m.Restores ending.machine ∧ ending.machine.isReady = true := by
  unfold callGlobal at hcall
  split at hcall
  · rename_i hready
    dsimp only at hcall
    split at hcall
    · cases hcall
      exact ⟨.refl, hready⟩
    · exact restores_callValue hsys hempty hcall hok
  · cases hcall
    cases hok

/-- Every message that is heard restores what the next one finds. -/
theorem restores_hearMessages (hready : m.isReady = true) {heard rounds n : Nat}
    {ending : Ending ν σ Nat} (hhear : m.hearMessages sys fuel w heard rounds = some ending)
    (hok : ending.result = .ok n) : m.Restores ending.machine ∧ ending.machine.isReady = true := by
  induction rounds generalizing m w heard with
  | zero => cases hhear
  | succ rounds ih =>
    unfold hearMessages at hhear
    split at hhear
    · rename_i hnext
      obtain ⟨hrestores, hsame⟩ := restores_nextDelivery hnext
      cases hhear
      exact ⟨hrestores, hsame.trans hready⟩
    · rename_i hnext
      obtain ⟨htaken, _⟩ := restores_nextDelivery hnext
      split at hhear
      · cases hhear
      · cases hhear
        cases hok
      · rename_i hcall
        have hempty' := htaken.size ▸ htaken.stackFloor_eq ▸ hempty
        obtain ⟨hheard, hready'⟩ := restores_callValue hsys hempty' hcall rfl
        have hfirst := htaken.trans hheard
        obtain ⟨hrest, hready''⟩ :=
          ih (hfirst.size ▸ hfirst.stackFloor_eq ▸ hempty) hready' hhear
        exact ⟨hfirst.trans hrest, hready''⟩

/-- Hearing all messages with success restores frames, stack and position. -/
theorem restores_processInbound {n : Nat} {ending : Ending ν σ Nat}
    (hhear : m.processInbound sys fuel w = some ending) (hok : ending.result = .ok n) :
    m.Restores ending.machine ∧ ending.machine.isReady = true := by
  unfold processInbound at hhear
  split at hhear
  · rename_i hready
    exact restores_hearMessages hsys hempty hready hhear hok
  · cases hhear
    cases hok

end Entering

end Machine

end Swarm
