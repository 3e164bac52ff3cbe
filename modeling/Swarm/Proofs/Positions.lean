import Swarm.Proofs.Faults
import Swarm.Proofs.Respects

/-!
# Where executions stand

While native functions are at work, the innermost instruction in progress is the
call that has led to them. The frame of every native function that waits, and that of
what it has called, go on behind this call; so whatever is called by a native function
ends with the machine there. In a machine that is ready the position that a failure
is recorded at can therefore be told from the instruction in progress.
-/

namespace Swarm

namespace Machine

open Swarm.Action

variable {ν : Type} {m m' : Machine ν} {called : Option ν} {k q : Nat}

/-- What becomes of the calls in progress when an instruction is carried out: they stay, a call that
was made by the instruction is added, or the last one ends. A call that is not the body of the
script ends where its frame goes on. -/
inductive Shifts (m : Machine ν) (called : Option ν) (m' : Machine ν) : Prop where
  | stays (hcalls : m'.calls = m.calls) (hcalled : called = none)
  | enters {f : Frame} (hcalls : m'.calls = m.calls.push f) (hkind : f.kind ≠ .script)
      (hcall : ∃ n, m.program.code.decodeAt m.pc = .ok (.call n)) (hreturn : f.returnPc = m.pc + 2)
      (hpc : called.isSome → m'.pc = m.pc + 2)
  | leaves {f : Frame} (hcalls : m.calls = m'.calls.push f)
      (hpc : f.kind ≠ .script → m'.pc = f.returnPc) (hcalled : called = none)

/-- With only the lowest frames left, the machine goes on at the position. -/
def GoesOnAt (m : Machine ν) (k q : Nat) : Prop :=
  if k < m.calls.size then ∃ f, m.calls[k]? = some f ∧ f.kind ≠ .script ∧ f.returnPc = q
  else m.pc = q

/-- There is a call for every frame. -/
theorem size_calls (m : Machine ν) : m.calls.size = m.frames.size := Array.size_map

/-- Where the machine goes on is kept by a new frame. -/
theorem GoesOnAt.enters (h : m.GoesOnAt k q) (hk : k < m.calls.size) {f : Frame}
    (hcalls : m'.calls = m.calls.push f) : m'.GoesOnAt k q := by
  unfold GoesOnAt at h ⊢
  rw [if_pos hk] at h
  rw [hcalls, Array.size_push, if_pos (by omega), Array.getElem?_push_lt hk,
    ← Array.getElem?_eq_getElem hk]
  exact h

/-- Where the machine goes on is kept when the last frame ends. -/
theorem GoesOnAt.leaves (h : m.GoesOnAt k q) (hk : k < m.calls.size) {f : Frame}
    (hcalls : m.calls = m'.calls.push f) (hpc : f.kind ≠ .script → m'.pc = f.returnPc) :
    m'.GoesOnAt k q := by
  unfold GoesOnAt at h ⊢
  rw [if_pos hk] at h
  obtain ⟨g, hg, hkind, hreturn⟩ := h
  rw [hcalls, Array.size_push] at hk
  rw [hcalls] at hg
  by_cases hlast : k < m'.calls.size
  · rw [if_pos hlast]
    rw [Array.getElem?_push_lt hlast, ← Array.getElem?_eq_getElem hlast] at hg
    exact ⟨g, hg, hkind, hreturn⟩
  · rw [if_neg hlast]
    have hk' : k = m'.calls.size := by omega
    rw [hk', Array.getElem?_push_size] at hg
    cases hg
    exact (hpc hkind).trans hreturn

/-- Only the calls in progress and the position matter. -/
theorem GoesOnAt.congr (h : m.GoesOnAt k q) (hcalls : m'.calls = m.calls) (hpc : m'.pc = m.pc) :
    m'.GoesOnAt k q := by
  unfold GoesOnAt at h ⊢
  rwa [hcalls, hpc]

/-- What has been called below still goes on at the same position. -/
theorem Shifts.goesOnAt (h : m.Shifts called m') (hk : k < m.calls.size) (hm : m.GoesOnAt k q) :
    m'.GoesOnAt k q := by
  cases h with
  | stays hcalls _ =>
    unfold GoesOnAt at hm ⊢
    rw [if_pos hk] at hm
    rwa [hcalls, if_pos hk]
  | enters hcalls _ _ _ _ => exact hm.enters hk hcalls
  | leaves hcalls hpc _ => exact hm.leaves hk hcalls hpc

/-- The innermost frame goes on at the position. -/
theorem goesOnAt_last {f : Frame} {calls : Array Frame} (hcalls : m.calls = calls.push f)
    (hkind : f.kind ≠ .script) : m.GoesOnAt (m.calls.size - 1) f.returnPc := by
  unfold GoesOnAt
  rw [hcalls, Array.size_push, if_pos (by omega), Nat.add_sub_cancel, Array.getElem?_push_size]
  exact ⟨f, rfl, hkind, rfl⟩

/-- A frame that is made makes a call. -/
theorem MakesFrame.calls {f : Frame} (h : m.MakesFrame called m' f) :
    m'.calls = m.calls.push f.outline := by
  unfold Machine.calls
  rw [h.frames, Array.map_push]

/-- Returning ends the last call. -/
theorem ends_ret_calls (v : Value) (m : Machine ν) :
    Ends (ret v) m (fun _ m' => ∃ f : Frame, m.calls = m'.calls.push f ∧ m'.pc = f.returnPc)
      fun _ _ => True := by
  refine ends_ret (fun frames f hframes => ?_) fun _ => trivial
  exact ends_push (fun _ => ⟨f.outline, calls_of_frames hframes, rfl⟩) fun _ => trivial

/-- What an instruction does to the calls in progress, once the machine stands behind it. -/
theorem shifts_execute {i : Instruction} {m₀ : Machine ν}
    (hdecode : m₀.program.code.decodeAt m₀.pc = .ok i) (hm : m = { m₀ with pc := m₀.pc + i.size }) :
    Ends (execute i) m (fun called m' => m₀.Shifts called m') fun _ _ => True := by
  have hcalls : m.calls = m₀.calls := by rw [hm]; rfl
  have hret (v : Value) (m₁ : Machine ν) (hsame : m₁.calls = m.calls) :
      Ends (do ret v; return none) m₁ (fun called m' => m₀.Shifts called m') fun _ _ => True := by
    refine (ends_ret_calls v m₁).bind fun _ m' ⟨f, hf, hpc⟩ => ends_pure ?_
    exact .leaves (hcalls ▸ hsame ▸ hf) (fun _ => hpc) rfl
  have hpop : Ends pop m (fun _ m' => m'.calls = m.calls) fun _ _ => True :=
    ends_pop (fun _ _ _ _ => rfl) fun _ => trivial
  cases i with
  | done =>
    have hdone : Ends done m (fun _ m' => m₀.Shifts none m') fun _ _ => True := by
      refine ends_done (fun frames f hframes hkind => ?_) (fun _ _ _ _ => trivial) fun _ => trivial
      exact .leaves (f := f.outline) (hcalls ▸ calls_of_frames hframes)
        (fun hne => absurd hkind hne) rfl
    exact hdone.bind fun _ m' h => ends_pure h
  | localStore index =>
    refine hpop.bind fun v m₁ hsame => ?_
    have hstore : Ends (storeLocal index.toNat v) m₁ (fun _ m' => m₀.Shifts none m')
        fun _ _ => True := by
      refine ends_storeLocal (fun frames f hframes => .stays ?_ rfl) fun _ => trivial
      rw [← hcalls, ← hsame, calls_of_frames hframes]
      exact Array.map_push
    exact hstore.bind fun _ m' h => ends_pure h
  | call n =>
    refine (makesFrame_call n.toNat m).imp (fun called m' ⟨f, hf⟩ => ?_) fun _ _ _ => trivial
    have hpc : m.pc = m₀.pc + 2 := by rw [hm]; rfl
    exact .enters (f := f.outline) (hcalls ▸ hf.calls) hf.kind ⟨n, hdecode⟩ (hf.returnPc.trans hpc)
      fun h => (hf.pc h).trans hpc
  | ret0 => exact hret .nil m rfl
  | ret1 => exact hpop.bind fun v m₁ hsame => hret v m₁ hsame
  | _ =>
    refine (callsNothing_execute (by exact trivial) m).imp
      (fun called m' ⟨hcalled, hframes, _⟩ => .stays ?_ hcalled) fun _ _ h => h
    unfold calls at hcalls ⊢
    rw [hframes, hcalls]

/-- Carrying out an instruction shifts the calls in progress. -/
theorem shifts_executeNext (m : Machine ν) :
    Ends executeNext m (fun called m' => m.Shifts called m') fun _ _ => True := by
  cases hdecode : m.program.code.decodeAt m.pc with
  | error error =>
    have hread : (get : Action ν (Machine ν)) m = .ok m m := rfl
    unfold Ends executeNext
    rw [bind_ok hread, hdecode]
    trivial
  | ok i =>
    unfold Ends
    rw [executeNext_eq hdecode]
    exact shifts_execute hdecode rfl

end Machine

/-- A native function asks for a call. -/
def Move.IsCall {κ : Type} : Move κ → Prop
  | .call .. => True
  | .finish _ | .runScript _ => False

variable {ν κ σ : Type} {sys : NativeSystem ν κ σ}

/-- The innermost call of a native function by an instruction. -/
def calling (waiting : List (Suspended κ)) : Option Nat := waiting.findSome? (·.origin)

namespace Machine

variable {m m' : Machine ν} {stop : Nat} {waiting : List (Suspended κ)}

/-- Above the given number of frames lies what has been called by the innermost native function that
waits. Its own frame is the last one below, and both go on behind the call of the instruction in
progress; further down it is the same. -/
def Holds (m : Machine ν) : Nat → List (Suspended κ) → Prop
  | _, [] => True
  | stop, s :: waiting => s.activation.stop < stop ∧
    (∀ p, calling (s :: waiting) = some p → m.GoesOnAt stop (p + 2) ∧
      m.GoesOnAt (stop - 1) (p + 2)) ∧
    m.Holds s.activation.stop waiting

/-- What is held is kept if the machine goes on everywhere as before. -/
theorem Holds.imp (h : m.Holds stop waiting)
    (hgoes : ∀ k q, k ≤ stop → m.GoesOnAt k q → m'.GoesOnAt k q) : m'.Holds stop waiting := by
  induction waiting generalizing stop with
  | nil => trivial
  | cons s waiting ih =>
    obtain ⟨hlt, hheld, hrest⟩ := h
    refine ⟨hlt, fun p hp => ?_, ih hrest fun k q hk => hgoes k q (by omega)⟩
    obtain ⟨hcalled, hnative⟩ := hheld p hp
    exact ⟨hgoes _ _ (Nat.le_refl _) hcalled, hgoes _ _ (by omega) hnative⟩

/-- A native function is at work: its frame is the innermost one, and it goes on behind the call of
the instruction in progress, where the machine stands. -/
structure AtWork (m : Machine ν) (stop : Nat) (origin : Option Nat) (waiting : List (Suspended κ)) :
    Prop where
  deep : stop < m.calls.size
  site : ∀ p, (origin <|> calling waiting) = some p →
    m.pc = p + 2 ∧ m.GoesOnAt (m.calls.size - 1) (p + 2)
  holds : m.Holds stop waiting

/-- A native function goes on behind the call that the instruction in progress is. -/
theorem AtWork.resumption {origin : Option Nat} (h : m.AtWork stop origin waiting) {p : Nat}
    (hp : (origin <|> calling waiting) = some p) : m.resumption = p + 2 := by
  obtain ⟨_, hlast⟩ := h.site p hp
  have hdeep := h.deep
  unfold GoesOnAt at hlast
  rw [if_pos (by omega)] at hlast
  obtain ⟨f, hf, _, hreturn⟩ := hlast
  have hsize : m.frames.size ≠ 0 := by
    rw [size_calls] at hdeep
    omega
  obtain ⟨frames, g, hframes⟩ := Array.eq_push_of_size_ne_zero hsize
  have hcalls := calls_of_frames hframes
  rw [hcalls, Array.size_push, Nat.add_sub_cancel, Array.getElem?_push_size] at hf
  cases hf
  rw [resumption_of_push hframes]
  exact hreturn

/-- Only the calls in progress and the position matter. -/
theorem AtWork.congr {origin : Option Nat} (h : m.AtWork stop origin waiting)
    (hcalls : m'.calls = m.calls) (hpc : m'.pc = m.pc) : m'.AtWork stop origin waiting where
  deep := hcalls ▸ h.deep
  site p hp := by
    obtain ⟨hsite, hlast⟩ := h.site p hp
    rw [hcalls]
    exact ⟨hpc.trans hsite, hlast.congr hcalls hpc⟩
  holds := h.holds.imp fun _ _ _ hgoes => hgoes.congr hcalls hpc

/-- Where what a native function asks for fails: at the call of an instruction, or behind it if a
native function makes a call. -/
theorem AtWork.position_eq {origin : Option Nat} (h : m.AtWork stop origin waiting)
    {move : Move κ} (hmove : ∀ rest, move ≠ .runScript rest) {p : Nat}
    (hp : (origin <|> calling waiting) = some p) :
    (¬(origin = none ∨ move.IsCall) → move.position m origin = p) ∧
      (origin = none ∨ move.IsCall → move.position m origin = p + 2) := by
  have hpc := (h.site p hp).1
  have hresumption := h.resumption hp
  match move with
  | .call callee arguments rest => exact ⟨fun h => absurd (.inr trivial) h, fun _ => hpc⟩
  | .runScript rest => exact absurd rfl (hmove rest)
  | .finish result =>
    cases origin with
    | none =>
      refine ⟨fun h => absurd (.inl rfl) h, fun _ => ?_⟩
      cases result with
      | ok v => exact hresumption
      | error error => exact hpc
    | some o =>
      cases hp
      refine ⟨fun _ => ?_, fun h => by rcases h with h | h <;> cases h⟩
      cases result <;> rfl

/-- A native function that is at work holds what it calls. -/
theorem AtWork.holds_enters {s : Suspended κ} (h : m.AtWork s.activation.stop s.origin waiting)
    {f : Frame} (hcalls : m'.calls = m.calls.push f) (hkind : f.kind ≠ .script)
    (hreturn : f.returnPc = m.pc) : m'.Holds m.calls.size (s :: waiting) := by
  have hdeep := h.deep
  refine ⟨hdeep, fun p hp => ?_, h.holds.imp fun k q hk hgoes => hgoes.enters (by omega) hcalls⟩
  have hsite : (s.origin <|> calling waiting) = some p := by
    unfold calling at hp ⊢
    cases hs : s.origin <;> simpa [List.findSome?_cons, hs] using hp
  obtain ⟨hpc, hnative⟩ := h.site p hsite
  constructor
  · have hlast := goesOnAt_last hcalls hkind
    rw [hcalls, Array.size_push, Nat.add_sub_cancel, hreturn, hpc] at hlast
    exact hlast
  · exact hnative.enters (by omega) hcalls

end Machine

namespace Execution

variable {m m' : Machine ν} {w : World σ} {activation : Activation} {waiting : List (Suspended κ)}
  {origin : Option Nat} {e : Execution ν κ σ}

/-- The position of the innermost instruction in progress. -/
def inProgress (e : Execution ν κ σ) : Option Nat :=
  match e.phase with
  | .running =>
    if e.activation.stop < e.machine.frames.size then some e.machine.pc else calling e.waiting
  | .entering _ origin => origin <|> calling e.waiting
  | .leaving _ => calling e.waiting

/-- The next step belongs to a call that a native function makes: it begins such a call, or what has
been called so is itself a native function that begins, goes on or ends. -/
def CallsBack (sys : NativeSystem ν κ σ) : Execution ν κ σ → Prop
  | ⟨m, w, _, .entering native origin, _⟩ => origin = none ∨ (sys.enter native m w).move.IsCall
  | ⟨m, w, _, .leaving result, s :: _⟩ =>
    s.origin = none ∨ (sys.resume s.rest result m w).move.IsCall
  | _ => False

/-- The execution stands where the instruction in progress says. -/
def Stands (e : Execution ν κ σ) : Prop :=
  match e.phase with
  | .running =>
    e.activation.stop ≤ e.machine.calls.size ∧ e.machine.Holds e.activation.stop e.waiting
  | .entering _ origin => e.machine.AtWork e.activation.stop origin e.waiting
  | .leaving _ =>
    e.machine.calls.size = e.activation.stop ∧ e.machine.Holds e.activation.stop e.waiting

/-- A native function that goes on is at work. -/
theorem Stands.atWork {s : Suspended κ} {result : Except RuntimeError Value}
    (h : Stands ⟨m, w, activation, .leaving result, s :: waiting⟩) :
    m.AtWork s.activation.stop s.origin waiting := by
  obtain ⟨hsize, hlt, hheld, hrest⟩ := h
  dsimp only at hsize hlt hheld hrest
  refine ⟨by omega, fun p hp => ?_, hrest⟩
  have hcalling : calling (s :: waiting) = some p := by
    unfold calling at hp ⊢
    cases hs : s.origin <;> simpa [List.findSome?_cons, hs] using hp
  obtain ⟨hcalled, hnative⟩ := hheld p hcalling
  constructor
  · unfold Machine.GoesOnAt at hcalled
    rwa [if_neg (by omega)] at hcalled
  · rwa [hsize]

/-- A call that begins stands where it should if what waits for it holds it. -/
theorem stands_startCall {callee : Value} {arguments : List Value}
    (hsite : ∀ p, calling waiting = some p → m.pc = p + 2)
    (hholds : ∀ (m' : Machine ν) (f : Frame), m'.calls = m.calls.push f → f.kind ≠ .script →
      f.returnPc = m.pc → m'.Holds m.calls.size waiting)
    (hready : m.isReady = true)
    (hready' : (startCall m w waiting callee arguments).machine.isReady = true) :
    (startCall m w waiting callee arguments).Stands := by
  have hframe := Machine.makesFrame_pushCall callee arguments m
  unfold Action.Ends at hframe
  unfold startCall at hready' ⊢
  rw [if_pos hready] at hready' ⊢
  rw [← Machine.size_calls] at hready' ⊢
  split <;> rename_i heq <;> rw [heq] at hframe
  · obtain ⟨f, hf⟩ := hframe
    refine ⟨?_, hholds _ f.outline hf.calls hf.kind hf.returnPc⟩
    dsimp only
    rw [hf.calls, Array.size_push]
    omega
  · obtain ⟨f, hf⟩ := hframe
    refine ⟨?_, fun p hp => ?_, hholds _ f.outline hf.calls hf.kind hf.returnPc⟩
    · dsimp only
      rw [hf.calls, Array.size_push]
      omega
    · have hpc := hsite p hp
      have hlast := Machine.goesOnAt_last hf.calls hf.kind
      have hreturn : f.outline.returnPc = p + 2 := hf.returnPc.trans hpc
      rw [hreturn] at hlast
      exact ⟨(hf.pc rfl).trans hpc, hlast⟩
  · rw [heq] at hready'
    cases (isReady_recordFault _ _).symm.trans hready'

/-- A body that begins stands where it should. -/
theorem stands_startScript (hready : m.isReady = true) :
    (startScript m w [] : Execution ν κ σ).Stands := by
  unfold startScript
  rw [if_pos hready]
  exact ⟨Nat.zero_le _, trivial⟩

/-- A native function that is at work is followed. -/
theorem stands_follow {move : Move κ} (hwork : m.AtWork activation.stop origin waiting)
    (hmove : ∀ rest, move ≠ .runScript rest) (hready : m.isReady = true)
    (hready' : (follow m w activation waiting origin move).machine.isReady = true) :
    (follow m w activation waiting origin move).Stands := by
  match move with
  | .finish (.ok v) =>
    have hret := Machine.ends_ret_calls v m
    have hdeep := hwork.deep
    unfold Action.Ends at hret
    simp only [follow] at hready' ⊢
    split <;> rename_i heq <;> rw [heq] at hret
    · obtain ⟨f, hcalls, hpc⟩ := hret
      refine ⟨?_, hwork.holds.imp fun k q hk hgoes => ?_⟩
      · rw [hcalls, Array.size_push] at hdeep
        exact Nat.le_of_lt_succ hdeep
      · exact hgoes.leaves (by omega) hcalls fun _ => hpc
    · rw [heq] at hready'
      cases (isReady_recordFault _ _).symm.trans hready'
  | .finish (.error error) => cases (isReady_recordFault _ _).symm.trans hready'
  | .call callee arguments rest =>
    refine stands_startCall (fun p hp => ?_) (fun m' f hcalls hkind hreturn => ?_) hready hready'
    · refine (hwork.site p ?_).1
      unfold calling at hp ⊢
      cases origin <;> simpa using hp
    · have hwork' : m.AtWork (⟨activation, origin, rest⟩ : Suspended κ).activation.stop
          (⟨activation, origin, rest⟩ : Suspended κ).origin waiting := hwork
      exact hwork'.holds_enters hcalls hkind hreturn
  | .runScript rest => exact absurd rfl (hmove rest)

/-- Who leaves an activation stands where it should. -/
theorem stands_close (hsize : m.calls.size = activation.stop)
    (hholds : m.Holds activation.stop waiting) : (close m w activation waiting).Stands := by
  unfold close
  split
  · exact ⟨hsize, hholds⟩
  · have hpop : Action.Ends Machine.pop m (fun _ m' => m'.calls = m.calls ∧ m'.pc = m.pc)
        fun _ m' => m'.calls = m.calls ∧ m'.pc = m.pc :=
      Machine.ends_pop (fun _ _ _ _ => ⟨rfl, rfl⟩) fun _ => ⟨rfl, rfl⟩
    unfold Action.Ends at hpop
    split <;> rename_i heq <;> rw [heq] at hpop <;> obtain ⟨hcalls, hpc⟩ := hpop
    all_goals
      exact ⟨(congrArg Array.size hcalls).trans hsize,
        hholds.imp fun _ _ _ hgoes => hgoes.congr hcalls hpc⟩

/-- An instruction is carried out in a frame above those of the activations below. -/
theorem stands_advance (hdeep : activation.stop < m.calls.size)
    (hholds : m.Holds activation.stop waiting)
    (hready' : (advance m w activation waiting : Execution ν κ σ).machine.isReady = true) :
    (advance m w activation waiting : Execution ν κ σ).Stands := by
  have hshifts := Machine.shifts_executeNext m
  unfold Action.Ends at hshifts
  unfold advance at hready' ⊢
  dsimp only at hready' ⊢
  split <;> rename_i heq <;> rw [heq] at hshifts
  · refine ⟨?_, hholds.imp fun k q hk hgoes => hshifts.goesOnAt (by omega) hgoes⟩
    dsimp only
    cases hshifts with
    | stays hcalls _ =>
      rw [hcalls]
      omega
    | enters hcalls _ _ _ _ =>
      rw [hcalls, Array.size_push]
      omega
    | leaves hcalls _ _ =>
      rw [hcalls, Array.size_push] at hdeep
      omega
  · have hkept := hholds.imp fun k q hk hgoes => hshifts.goesOnAt (by omega) hgoes
    cases hshifts with
    | enters hcalls hkind hcall hreturn hpc =>
      refine ⟨?_, fun p hp => ?_, hkept⟩
      · dsimp only
        rw [hcalls, Array.size_push]
        omega
      · cases hp
        have hlast := Machine.goesOnAt_last hcalls hkind
        rw [hreturn] at hlast
        exact ⟨hpc rfl, hlast⟩
    | stays _ hcalled | leaves _ _ hcalled => cases hcalled
  · rw [heq] at hready'
    cases (isReady_recordFault _ _).symm.trans hready'

/-- A step that leaves the machine ready leaves the execution where it should stand. -/
theorem Stands.step (hsys : sys.Forwards) (h : e.Stands) (hready : e.machine.isReady = true)
    (hready' : (e.step sys).machine.isReady = true) : (e.step sys).Stands := by
  match e with
  | ⟨m, w, activation, .running, waiting⟩ =>
    obtain ⟨hsize, hholds⟩ := h
    dsimp only at hsize hholds
    have hcalls := m.size_calls
    simp only [Execution.step] at hready' ⊢
    split
    · rename_i hdeep
      rw [if_pos hdeep] at hready'
      exact stands_advance (by omega) hholds hready'
    · exact stands_close (by omega) hholds
  | ⟨m, w, activation, .entering native origin, waiting⟩ =>
    have hwork : m.AtWork activation.stop origin waiting := h
    exact stands_follow (hwork.congr rfl rfl) (hsys.enter native m w) hready hready'
  | ⟨m, w, _, .leaving result, ⟨activation, origin, rest⟩ :: waiting⟩ =>
    exact stands_follow (h.atWork.congr rfl rfl) (hsys.resume rest result m w) hready hready'
  | ⟨m, w, activation, .leaving result, []⟩ => exact h

/-- The fault that a step records is at the instruction in progress, but behind it if it belongs to
a call that a native function makes. -/
theorem Stands.fault_pc (hsys : sys.Forwards) (h : e.Stands) (hready : e.machine.isReady = true)
    {p : Nat} (hp : e.inProgress = some p) {f : Fault}
    (hf : (e.step sys).machine.fault = some f) :
    (¬e.CallsBack sys → f.pc = p) ∧ (e.CallsBack sys → f.pc = p + 2) := by
  obtain ⟨hpc, _⟩ := exists_error_of_fault hready hf
  rw [hpc]
  match e with
  | ⟨m, w, activation, .running, waiting⟩ =>
    refine ⟨fun _ => ?_, False.elim⟩
    unfold inProgress at hp
    dsimp only at hp
    split at hp
    · cases hp
      rfl
    · rename_i hstop
      simp only [Execution.step, if_neg hstop] at hf
      rw [fault_close, Option.isNone_iff_eq_none.mp hready] at hf
      cases hf
  | ⟨m, w, activation, .entering native origin, waiting⟩ =>
    have hwork : m.AtWork activation.stop origin waiting := h
    exact hwork.position_eq (hsys.enter native m w) hp
  | ⟨m, w, _, .leaving result, ⟨activation, origin, rest⟩ :: waiting⟩ =>
    refine h.atWork.position_eq (hsys.resume rest result m w) ?_
    unfold inProgress calling at hp
    unfold calling
    cases origin <;> simpa using hp
  | ⟨m, w, activation, .leaving result, []⟩ => cases hp

end Execution

end Swarm
