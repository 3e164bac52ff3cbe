import Swarm.Proofs.Images
import Swarm.Proofs.Operations
import Swarm.Proofs.Positions

/-!
# The positions of faults

On a reachable bridge every execution stands where its innermost instruction in
progress says. A fault is therefore recorded at this instruction if the instruction
fails or if a native function that it has called fails. If a native function fails to
make a call, the fault is recorded behind the instruction, and the diagnosis names
whatever the debug-symbol table has there.
-/

namespace Swarm

/-- Starts and ends of instructions are within the code. -/
theorem Code.IsBoundary.le_size {code : Code} {offset : Nat} (h : code.IsBoundary offset) :
    offset ≤ code.size := by
  rcases h with hstart | rfl
  · obtain ⟨i, hdecode, _⟩ := hstart.decodeAt
    have hsize := Code.add_size_le_of_decodeAt hdecode
    omega
  · exact Nat.le_refl _

namespace Execution

variable {ν κ σ : Type} {sys : NativeSystem ν κ σ} {m : Machine ν} {w : World σ}
  {activation : Activation} {waiting : List (Suspended κ)} {e : Execution ν κ σ} {p : Nat}

/-- The instructions that have called the native functions at work. -/
def origins (e : Execution ν κ σ) : List Nat :=
  (match e.phase with
    | .entering _ (some origin) => [origin]
    | _ => []) ++ e.waiting.filterMap (·.origin)

/-- The instructions that have called native functions are calls. -/
def AtCalls (e : Execution ν κ σ) : Prop :=
  ∀ p ∈ e.origins, e.machine.program.code.IsBoundary p ∧
    ∃ n, e.machine.program.code.decodeAt p = .ok (.call n)

/-- The instruction that called the innermost native function is one of the origins. -/
theorem mem_origins_of_calling (h : calling e.waiting = some p) : p ∈ e.origins := by
  unfold calling at h
  obtain ⟨s, hs, horigin⟩ := List.exists_of_findSome?_eq_some h
  exact List.mem_append_right _ (List.mem_filterMap.mpr ⟨s, hs, horigin⟩)

/-- The instruction in progress has called a native function, or it is the next one. -/
theorem mem_origins_of_inProgress (h : e.inProgress = some p) :
    p ∈ e.origins ∨ e.phase = .running ∧ p = e.machine.pc := by
  obtain ⟨m, w, activation, phase, waiting⟩ := e
  unfold inProgress at h
  cases phase with
  | running =>
    dsimp only at h
    split at h
    · cases h
      exact .inr ⟨rfl, rfl⟩
    · exact .inl (mem_origins_of_calling h)
  | entering native origin =>
    cases origin with
    | none => exact .inl (mem_origins_of_calling h)
    | some origin =>
      cases h
      exact .inl (List.mem_append_left _ List.mem_cons_self)
  | leaving result => exact .inl (mem_origins_of_calling h)

/-- The beginning of a call adds no origin. -/
theorem origins_startCall {callee : Value} {arguments : List Value} :
    (startCall m w waiting callee arguments).origins = waiting.filterMap (·.origin) := by
  unfold startCall
  dsimp only
  split
  · split <;> rfl
  · rfl

/-- The beginning of the body adds no origin. -/
theorem origins_startScript :
    (startScript m w waiting : Execution ν κ σ).origins = waiting.filterMap (·.origin) := by
  unfold startScript
  split <;> rfl

/-- Following a native function adds no instruction. -/
theorem mem_origins_follow {origin : Option Nat} {move : Move κ}
    (h : p ∈ (follow m w activation waiting origin move).origins) :
    origin = some p ∨ p ∈ waiting.filterMap (·.origin) := by
  have hcons (s : Suspended κ) (hs : s.origin = origin)
      (hp : p ∈ (s :: waiting).filterMap (·.origin)) :
      origin = some p ∨ p ∈ waiting.filterMap (·.origin) := by
    cases origin <;> simp_all [eq_comm]
  match move with
  | .finish (.ok v) =>
    simp only [follow] at h
    split at h <;> exact .inr h
  | .finish (.error error) => exact .inr h
  | .call callee arguments rest =>
    simp only [follow, origins_startCall] at h
    exact hcons _ rfl h
  | .runScript rest =>
    simp only [follow, origins_startScript] at h
    exact hcons _ rfl h

/-- The only instruction that a step adds is the call that is carried out. -/
theorem mem_origins_step (h : p ∈ (e.step sys).origins) :
    p ∈ e.origins ∨ p = e.machine.pc ∧ ∃ n, e.machine.program.code.decodeAt p = .ok (.call n) := by
  match e with
  | ⟨m, w, activation, .running, waiting⟩ =>
    simp only [step] at h
    split at h
    · have hshifts := Machine.shifts_executeNext m
      unfold Action.Ends at hshifts
      unfold advance at h
      dsimp only at h
      split at h <;> rename_i heq <;> rw [heq] at hshifts
      · exact .inl h
      · rcases List.mem_append.mp h with hnew | hold
        · cases List.mem_singleton.mp hnew
          cases hshifts with
          | enters _ _ hcall _ _ => exact .inr ⟨rfl, hcall⟩
          | stays _ hcalled | leaves _ _ hcalled => cases hcalled
        · exact .inl hold
      · exact .inl h
    · unfold close at h
      split at h
      · exact .inl h
      · split at h <;> exact .inl h
  | ⟨m, w, activation, .entering native origin, waiting⟩ =>
    left
    rcases mem_origins_follow h with rfl | hold
    · exact List.mem_append_left _ List.mem_cons_self
    · exact List.mem_append_right _ hold
  | ⟨m, w, _, .leaving result, ⟨activation, origin, rest⟩ :: waiting⟩ =>
    left
    rcases mem_origins_follow h with rfl | hold
    · exact List.mem_append_right _ List.mem_cons_self
    · refine List.mem_append_right _ ?_
      cases origin with
      | none => exact hold
      | some origin => exact List.mem_cons_of_mem _ hold
  | ⟨m, w, activation, .leaving result, []⟩ => exact .inl h

/-- A step of a sound execution keeps the calls. -/
theorem AtCalls.step (h : e.AtCalls) (hpc : e.machine.program.code.IsBoundary e.machine.pc)
    (hprogram : (e.step sys).machine.program = e.machine.program) : (e.step sys).AtCalls := by
  intro p hp
  rw [hprogram]
  rcases mem_origins_step hp with hold | ⟨rfl, hcall⟩
  · exact h p hold
  · exact ⟨hpc, hcall⟩

/-- Failures are at boundaries. -/
theorem AtCalls.isBoundary_position (h : e.AtCalls) (hm : e.machine.Sound) :
    e.machine.program.code.IsBoundary (e.position sys) := by
  have hresumption : e.machine.program.code.IsBoundary e.machine.resumption := by
    unfold Machine.resumption
    split
    · exact hm.pc
    · rename_i f hf
      exact hm.returnPc f (Array.mem_of_back? hf)
  have hmove (origin : Option Nat) (move : Move κ)
      (horigin : ∀ p, origin = some p → p ∈ e.origins) :
      e.machine.program.code.IsBoundary (move.position e.machine origin) := by
    have hgetD (q : Nat) (hq : e.machine.program.code.IsBoundary q) :
        e.machine.program.code.IsBoundary (origin.getD q) := by
      cases origin with
      | none => exact hq
      | some p => exact (h p (horigin p rfl)).1
    match move with
    | .finish (.ok _) => exact hgetD _ hresumption
    | .finish (.error _) => exact hgetD _ hm.pc
    | .call .. | .runScript _ => exact hm.pc
  match e with
  | ⟨m, w, activation, .running, waiting⟩ => exact hm.pc
  | ⟨m, w, activation, .entering native origin, waiting⟩ =>
    refine hmove origin _ ?_
    rintro p rfl
    exact List.mem_append_left _ List.mem_cons_self
  | ⟨m, w, _, .leaving result, s :: waiting⟩ =>
    refine hmove s.origin _ fun p hp => List.mem_append_right _ ?_
    exact List.mem_filterMap.mpr ⟨s, List.mem_cons_self, hp⟩
  | ⟨m, w, activation, .leaving result, []⟩ => exact hm.pc

end Execution

variable {σ : Type}

namespace Stage

open Swarm.Execution

variable {hooks : HookTable σ} {s s' t : Stage σ} {moments : List (Moment σ)}

/-- Until the machine has faulted, an idle one is at rest, and one at work stands where it
should. -/
def Placed : Stage σ → Prop
  | .idle m => m.isReady = true → m.AtRest
  | .busy e => e.AtCalls ∧ (e.machine.isReady = true → (∃ p, e.Steady p) ∧ e.Stands)

/-- A call of an idle machine. -/
theorem placed_startCall {m : Machine Native} (hm : m.isReady = true → m.AtRest) (w : World σ)
    (callee : Value) (arguments : List Value) :
    (Stage.busy (.startCall m w [] callee arguments)).Placed := by
  refine ⟨fun p hp => ?_, fun hready' => ?_⟩
  · rw [origins_startCall] at hp
    cases hp
  · by_cases hready : m.isReady = true
    · have hrest := hm hready
      refine ⟨⟨.call, steady_startCall ?_ hready fun _ => hrest.noBody⟩, ?_⟩
      · rw [hrest.2]
        rfl
      · exact stands_startCall nofun (fun _ _ _ _ _ => trivial) hready hready'
    · unfold startCall at hready'
      rw [if_neg hready] at hready'
      exact absurd hready' hready

/-- A body that begins stands where it should. -/
theorem placed_startScript (m : Machine Native) (w : World σ) :
    (Stage.busy (.startScript m w [])).Placed := by
  refine ⟨fun p hp => ?_, fun hready' => ?_⟩
  · rw [origins_startScript] at hp
    cases hp
  · by_cases hready : m.isReady = true
    · exact ⟨⟨.script, steady_startScript hready⟩, stands_startScript hready⟩
    · unfold startScript at hready'
      rw [if_neg hready] at hready'
      exact absurd hready' hready

/-- A machine that has been left is at rest unless it has faulted. -/
theorem placed_left {m : Machine Native} {w : World σ} {activation : Activation}
    {result : Except RuntimeError Value}
    (h : (Stage.busy ⟨m, w, activation, .leaving result, []⟩).Placed) :
    (Stage.idle m : Stage σ).Placed := by
  intro hready
  obtain ⟨⟨p, hsteady⟩, _⟩ := h.2 hready
  have hphase := hsteady.phase
  cases result with
  | ok v => exact ⟨hready, hphase.2.2 rfl⟩
  | error error => cases hready.symm.trans (hphase rfl)

/-- A move of a sound stage keeps it placed. -/
theorem Moves.placed (h : s.Moves hooks moments s') (hsound : s.Sound) (hs : s.Placed) :
    s'.Placed := by
  cases h with
  | drop _ _ => exact hs
  | @hear m m' message rest _ _ w _ _ hpresent =>
    have hm' : ((m.leaveMessages rest).present message).1 = m' := by rw [hpresent]
    refine placed_startCall ?_ w _ _
    rw [← hm']
    exact hs
  | body m w => exact placed_startScript m w
  | call m w name => exact placed_startCall hs w _ _
  | step e =>
    have hforwards := Native.system_forwards hooks
    have hmove : Moves hooks (.busy e) _ _ := .step e
    have hprogram := (hmove.sound hsound).2.program
    refine ⟨hs.1.step hsound.machine.sound.pc hprogram, fun hready' => ?_⟩
    have hready := isReady_of_step hready'
    obtain ⟨⟨p, hsteady⟩, hstands⟩ := hs.2 hready
    exact ⟨⟨p, hsteady.step hforwards⟩, hstands.step hforwards hready hready'⟩
  | leave m w activation result | heard m w activation result => exact placed_left hs

/-- A path from a sound stage keeps it placed. -/
theorem Path.placed (h : s.Path hooks moments t) (hsound : s.Sound) (hs : s.Placed) :
    t.Placed := by
  induction h with
  | nil s => exact hs
  | cons hmove _ ih => exact ih (hmove.sound hsound).1 (hmove.placed hsound hs)

/-- A fault stays as it is on a path. -/
theorem Path.fault (h : s.Path hooks moments t) {f : Fault} (hf : s.machine.fault = some f) :
    t.machine.fault = some f := by
  have hrecords {m : Machine Native} {pc : Nat} {e : Execution Native Traversal σ}
      (hm : m.fault = some f) (he : e.Records m pc) : e.machine.fault = some f := by
    rcases he with hsame | ⟨error, _, hrecorded⟩
    · exact hsame.trans hm
    · rw [hrecorded, hm]
      rfl
  induction h with
  | nil s => exact hf
  | cons hmove _ ih =>
    refine ih ?_
    cases hmove with
    | drop _ _ => exact hf
    | @hear m m' message rest _ _ w _ _ hpresent =>
      have hm' : ((m.leaveMessages rest).present message).1 = m' := by rw [hpresent]
      exact hrecords (hm' ▸ hf) (records_startCall _ _)
    | body m w => exact hrecords hf (records_startScript m.pc)
    | call m w name => exact hrecords hf (records_startCall _ _)
    | step e => exact fault_passes (.step .refl) hf
    | leave m w activation result | heard m w activation result => exact hf

/-- Whatever a machine comes to, its program was read from an image. -/
theorem Reached.exists_image (h : s.Reached) :
    ∃ image, Program.ofBytes image = .ok s.machine.program := by
  induction h with
  | @load image program h limits contextId =>
    have hprogram : (Machine.loaded program limits contextId).program = program := by
      unfold Machine.loaded
      rw [Machine.new_eq]
      rfl
    exact ⟨image, hprogram ▸ h⟩
  | next h hnext ih =>
    rw [(h.sound.next hnext).2.program]
    exact ih
  | release _ ih => exact ih

end Stage

namespace Bridge

open Stage

variable {b b' : Bridge σ} {vm : Handle} {i : Instance} {fuel : Nat} {op : Operation σ}
  {e e' : Execution Native Traversal σ}

/-- During the operation the machine with the handle takes a step that records the fault. -/
def FaultsIn (b : Bridge σ) (fuel : Nat) (op : Operation σ) (vm : Handle)
    (e : Execution Native Traversal σ) (f : Fault) : Prop :=
  e.machine.isReady = true ∧
    ∃ e', .works e e' ∈ op.moments fuel b vm ∧ e'.machine.fault = some f

/-- Where faults are recorded on a bridge. -/
structure LocatesFaults (b : Bridge σ) : Prop where
  /-- A fault is recorded at the innermost instruction in progress, but behind it if it belongs to a
  call that a native function makes. -/
  position : ∀ fuel op vm e f p, b.FaultsIn fuel op vm e f → e.inProgress = some p →
    (¬e.CallsBack (Native.system b.hooks) → f.pc = p) ∧
      (e.CallsBack (Native.system b.hooks) → f.pc = p + 2)
  /-- The instruction in progress is the next one, which is the end of the code if execution has run
  off it, or a call. -/
  inProgress : ∀ fuel op vm e f p, b.FaultsIn fuel op vm e f → e.inProgress = some p →
    e.machine.program.code.IsBoundary p ∧ (e.phase = .running ∧ p = e.machine.pc ∨
      ∃ n, e.machine.program.code.decodeAt p = .ok (.call n))
  /-- The diagnosis after the step names what the debug-symbol table has at the fault. -/
  explains : ∀ fuel vm e f, b.FaultsIn fuel (.step vm) vm e f → ∀ outcome b',
    b.step fuel vm = some (.ok (outcome, b')) → ∃ i i', b.find vm = .ok i ∧ b'.find vm = .ok i' ∧
      i'.machine.fault = some f ∧ b'.explain vm = .ok i'.diagnosis ∧
      outcome = .faulted i'.diagnosis ∧
      i'.faultLocation? = i.debug.lookup (UInt32.ofNat f.pc)

/-- What is the case when an execution under way records a fault. -/
structure Faulting (b : Bridge σ) (i : Instance) (e : Execution Native Traversal σ) (f : Fault) :
    Prop where
  recorded : (e.step (Native.system b.hooks)).machine.fault = some f
  program : e.machine.program = i.machine.program
  sound : e.machine.Sound
  atCalls : e.AtCalls
  stands : e.Stands

/-- Who records a fault on a reachable bridge does so at a sound, well-placed execution. -/
theorem Reachable.exists_faulting (h : b.Reachable) {f : Fault} (he : b.FaultsIn fuel op vm e f) :
    ∃ i, b.find vm = .ok i ∧ b.Faulting i e f := by
  obtain ⟨hready, e', hmem, hf⟩ := he
  cases hfind : b.find vm with
  | error error =>
    rw [moments_of_error hfind] at hmem
    cases hmem
  | ok i =>
    have hi := mem_of_find hfind
    obtain ⟨t, hpath, _⟩ := exists_path_moments hfind fuel op
    obtain ⟨_, _, _, hbefore, rfl, _⟩ := hpath.split hmem
    have hidle : (Stage.idle i.machine : Stage σ).Sound := h.sound hi
    obtain ⟨hsound, hgrows⟩ := hbefore.sound hidle
    obtain ⟨hcalls, hplaced⟩ := hbefore.placed hidle (h.registered.consistent i hi).rest
    exact ⟨i, rfl, hf, hgrows.program, hsound.machine.sound, hcalls, (hplaced hready).2⟩

/-- A fault is inside the code or at its end. -/
theorem Faulting.pc_lt {f : Fault} (h : b.Faulting i e f) (hready : e.machine.isReady = true)
    (hi : Stage.Reached (σ := σ) (.idle i.machine)) : f.pc < 4294967296 := by
  obtain ⟨hpc, _⟩ := Execution.exists_error_of_fault hready h.recorded
  have hboundary : e.machine.program.code.IsBoundary (e.position (Native.system b.hooks)) :=
    h.atCalls.isBoundary_position h.sound
  have hle := hboundary.le_size
  obtain ⟨image, himage⟩ := hi.exists_image
  have hcode : i.machine.program.code.size < 4294967296 :=
    (Program.ofBytes_eq_ok_iff.1 himage).1.code
  rw [hpc]
  rw [h.program] at hle
  omega

/-- The diagnosis of a step that fails names the source position of its fault. -/
theorem Reachable.explains_fault (h : b.Reachable) {f : Fault}
    (he : b.FaultsIn fuel (.step vm) vm e f) {outcome : StepOutcome}
    (hstep : b.step fuel vm = some (.ok (outcome, b'))) :
    ∃ i i', b.find vm = .ok i ∧ b'.find vm = .ok i' ∧ i'.machine.fault = some f ∧
      b'.explain vm = .ok i'.diagnosis ∧ outcome = .faulted i'.diagnosis ∧
      i'.faultLocation? = i.debug.lookup (UInt32.ofNat f.pc) := by
  obtain ⟨i, hfind, hfaulting⟩ := h.exists_faulting he
  obtain ⟨hready, e', hmem, hf⟩ := he
  obtain ⟨j, i', world, hj, hturn, rfl⟩ := exists_of_step hstep
  cases hfind.symm.trans hj
  obtain ⟨m, hpath, hmachine⟩ := Instance.path_of_step hturn
  rw [moments_step hfind] at hmem
  obtain ⟨_, _, _, _, _, hafter⟩ := hpath.split hmem
  have hfault : i'.machine.fault = some f := by
    have hm : m.fault = some f := hafter.fault hf
    rw [hmachine]
    split <;> exact hm
  have hi := mem_of_find hfind
  obtain ⟨_, _, hends⟩ := (h.registered.consistent i hi).step b.hooks fuel b.world
  obtain ⟨_, hsame, _, houtcome⟩ := hends _ _ _ hturn
  have hfind' : ({ b.replace vm i' with world } : Bridge σ).find vm = .ok i' :=
    find_replace hfind rfl
  have hlt := hfaulting.pc_lt hready (h.reached hi)
  refine ⟨i, i', hfind, hfind', hfault, explain_eq hfind', ?_, ?_⟩
  · rw [houtcome, Instance.outcome, Machine.isReady, hfault]
    rfl
  · have hpc : i'.faultPc = f.pc := by
      unfold Instance.faultPc
      rw [hfault]
    unfold Instance.faultLocation?
    rw [hpc, if_pos hlt, hsame.debug]

/-- Every fault is recorded where the instruction in progress says. -/
theorem Reachable.locatesFaults (h : b.Reachable) : b.LocatesFaults where
  position fuel op vm e f p he hp := by
    obtain ⟨i, _, hfaulting⟩ := h.exists_faulting he
    exact hfaulting.stands.fault_pc (Native.system_forwards b.hooks) he.1 hp hfaulting.recorded
  inProgress fuel op vm e f p he hp := by
    obtain ⟨i, _, hfaulting⟩ := h.exists_faulting he
    rcases Execution.mem_origins_of_inProgress hp with horigin | ⟨hphase, rfl⟩
    · obtain ⟨hboundary, hcall⟩ := hfaulting.atCalls p horigin
      exact ⟨hboundary, .inr hcall⟩
    · exact ⟨hfaulting.sound.pc, .inl ⟨hphase, rfl⟩⟩
  explains fuel vm e f he outcome b' hstep := h.explains_fault he hstep

end Bridge

/-- A script that lets `foreach` visit a table with one row in its first line, and its
debug-symbol table. The visitor is what the instruction pushes; code that a visitor may run and
everything else behind the call is in the second line. -/
def Files.visiting (visitor : Bytes) : Files := fun path =>
  if path = "script" then
    .ok ([0x48, 0x49, 0x56, 0x45, 1, 1, 0, 7, 0, 0x66, 0x6f, 0x72, 0x65, 0x61, 0x63, 0x68,
      25, 0, 0, 0, 12, 0, 0, 7, 8, 3, 1, 0, 0, 0, 3, 1, 0, 0, 0, 10] ++ visitor ++ [16, 2, 0, 0])
  else .ok [0x48, 0x44, 0x42, 0x47, 1, 0, 4, 0, 0x6d, 0x61, 0x69, 0x6e, 0, 2, 2, 0, 23, 2, 0, 0]

namespace Bridge

/-- A bridge into which a script that visits a table has been loaded. -/
def visiting (visitor : Bytes) : Bridge Unit :=
  let b : Bridge Unit := .new 1 0 {} ()
  b.attempt ((b.load (Files.visiting visitor) "script" "symbols" 7).map Prod.fst)

/-- The bridge is reachable. -/
theorem reachable_visiting (visitor : Bytes) : (visiting visitor).Reachable := by
  have hnew : (Bridge.new 1 0 {} () : Bridge Unit).Reachable := .new 1 0 {} ()
  have hload : (Operation.load (Files.visiting visitor) "script" "symbols" 7).after 0
      (.new 1 0 {} ()) = some (visiting visitor) := rfl
  exact hnew.after hload

/-- A step records the fault while the instruction is in progress. -/
def recordsAt (inProgress : Nat) (f : Fault) : Moment Unit → Bool
  | .works e e' => decide (e.machine.isReady = true ∧ e.inProgress = some inProgress ∧
      e'.machine.fault = some f)
  | _ => false

/-- A fault that is found among the moments of an operation is recorded in it. -/
theorem exists_faultsIn {b : Bridge Unit} {fuel : Nat} {op : Operation Unit} {vm : Handle}
    {inProgress : Nat} {f : Fault}
    (h : (op.moments fuel b vm).any (recordsAt inProgress f) = true) :
    ∃ e, b.FaultsIn fuel op vm e f ∧ e.inProgress = some inProgress := by
  obtain ⟨moment, hmem, hmoment⟩ := List.any_eq_true.mp h
  cases moment with
  | works e e' =>
    obtain ⟨hready, hprogress, hfault⟩ := of_decide_eq_true hmoment
    exact ⟨e, ⟨hready, e', hmem, hfault⟩, hprogress⟩
  | takes | hears | heard => cases hmoment

/-- A visitor that is a function of the script faults at its own instruction. -/
theorem locatesFaults_visitor : ∃ e f, (visiting [6, 24, 0, 0, 0]).LocatesFaults ∧
    (visiting [6, 24, 0, 0, 0]).FaultsIn 40 (.step ⟨0⟩) ⟨0⟩ e f ∧ e.inProgress = some 24 ∧
    f = ⟨24, .unexpectedDone⟩ := by
  have hlocates := Reachable.locatesFaults (reachable_visiting [6, 24, 0, 0, 0])
  have hcheck : ((Operation.step ⟨0⟩).moments 40 (visiting [6, 24, 0, 0, 0]) ⟨0⟩).any
      (recordsAt 24 ⟨24, .unexpectedDone⟩) = true := by decide +kernel
  obtain ⟨e, he, hprogress⟩ := exists_faultsIn hcheck
  exact ⟨e, _, hlocates, he, hprogress, rfl⟩

/-- A visitor that is no function makes the call of `foreach` fault, but the fault is recorded
behind the call, and the diagnosis names the second line. -/
theorem faults_behind_call : ∃ e f i i' outcome b', (visiting [3, 5, 0, 0, 0]).Reachable ∧
    (visiting [3, 5, 0, 0, 0]).FaultsIn 40 (.step ⟨0⟩) ⟨0⟩ e f ∧ e.inProgress = some 21 ∧
    f = ⟨23, .notCallable .int⟩ ∧ (visiting [3, 5, 0, 0, 0]).find ⟨0⟩ = .ok i ∧
    (i.machine.program.code.decodeAt 21).toOption = some (.call 2) ∧
    i.debug.lookup 21 = some ⟨"main", 1, 1⟩ ∧
    (visiting [3, 5, 0, 0, 0]).step 40 ⟨0⟩ = some (.ok (outcome, b')) ∧
    b'.find ⟨0⟩ = .ok i' ∧ b'.explain ⟨0⟩ = .ok i'.diagnosis ∧ i'.machine.fault = some f ∧
    i'.faultLocation? = some ⟨"main", 2, 1⟩ := by
  let b := visiting [3, 5, 0, 0, 0]
  have hrecorded : ((Operation.step ⟨0⟩).moments 40 b ⟨0⟩).any
      (recordsAt 21 ⟨23, .notCallable .int⟩) = true := by decide +kernel
  have hbefore : (b.find ⟨0⟩).toOption.any (fun i =>
      decide ((i.machine.program.code.decodeAt 21).toOption = some (.call 2) ∧
        i.debug.lookup 21 = some ⟨"main", 1, 1⟩)) = true := by decide +kernel
  have hafter : (b.step 40 ⟨0⟩).any (fun result => result.toOption.any fun (_, b') =>
      (b'.find ⟨0⟩).toOption.any fun i' =>
        decide (i'.machine.fault = some ⟨23, .notCallable .int⟩ ∧
          i'.faultLocation? = some ⟨"main", 2, 1⟩)) = true := by decide +kernel
  obtain ⟨e, he, hprogress⟩ := exists_faultsIn hrecorded
  have hok {ε α : Type} {x : Except ε α} {p : α → Bool} (h : x.toOption.any p = true) :
      ∃ a, x = .ok a ∧ p a = true := by
    cases x with
    | ok a => exact ⟨a, rfl, h⟩
    | error e => cases h
  obtain ⟨i, hfind, hi⟩ := hok hbefore
  obtain ⟨hcall, hline⟩ := of_decide_eq_true hi
  obtain ⟨result, hstep, hresult⟩ := (Option.any_eq_true _ _).mp hafter
  obtain ⟨⟨outcome, b'⟩, rfl, hfound⟩ := hok hresult
  obtain ⟨i', hfind', hi'⟩ := hok hfound
  obtain ⟨hfault, hlocation⟩ := of_decide_eq_true hi'
  exact ⟨e, _, i, i', outcome, b', reachable_visiting _, he, hprogress, rfl, hfind, hcall, hline,
    hstep, hfind', explain_eq hfind', hfault, hlocation⟩

end Bridge

end Swarm
