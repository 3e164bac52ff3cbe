import Swarm.Proofs.History
import Swarm.Proofs.Orderly

/-!
# Frames are isolated unless an instruction overreaches

While a frame is on the stack of calls, what lies below its stack base belongs to
its callers. No step reads, removes or overwrites it, and an instruction without
enough operands of its own frame fails, as long as no `Dup` and no `Call` takes
operands from below the floor. Then a call that returns has replaced the called
value and its arguments by one result.
-/

namespace Swarm

namespace Execution

variable {ν κ σ : Type} {sys : NativeSystem ν κ σ} {e e' : Execution ν κ σ}

/-- The next step leaves what belongs to the callers of any frame alone. -/
structure Isolated (sys : NativeSystem ν κ σ) (e : Execution ν κ σ) : Prop where
  /-- Below the stack base of a frame nothing is removed or overwritten. -/
  keeps : ∀ f ∈ e.machine.frames, ∀ k < f.stackBase,
    (e.step sys).machine.stack[k]? = e.machine.stack[k]?
  /-- What is below the stack base of a frame is not read: with anything else in its place the
  step does the same. -/
  blind : ∀ f ∈ e.machine.frames, ∀ lower : Array Value, lower.size = f.stackBase →
    (e.withBelow lower).step sys = (e.step sys).withBelow lower
  /-- An instruction that needs more operands than its frame has pushed faults. -/
  underflow : ∀ i, e.instruction? = some i → e.machine.own < i.operands →
    (e.step sys).phase = .leaving (.error .stackUnderflow) ∧
      (e.machine.fault = none →
        (e.step sys).machine.fault = some ⟨e.machine.pc, .stackUnderflow⟩)

/-- The next step carries out the instruction. -/
theorem step_of_instruction? (sys : NativeSystem ν κ σ) {i : Instruction}
    (h : e.instruction? = some i) :
    e.machine.program.code.decodeAt e.machine.pc = .ok i ∧
      e.step sys = advance e.machine e.world e.activation e.waiting := by
  obtain ⟨m, w, activation, phase, waiting⟩ := e
  unfold instruction? at h
  cases phase with
  | running =>
    dsimp only at h
    by_cases hstop : activation.stop < m.frames.size
    · rw [if_pos hstop] at h
      constructor
      · cases hdecode : m.program.code.decodeAt m.pc with
        | ok j =>
          rw [hdecode] at h
          cases h
          rfl
        | error error =>
          rw [hdecode] at h
          cases h
      · exact if_pos hstop
    · rw [if_neg hstop] at h
      cases h
  | _ => cases h

/-- Only a running execution is at an instruction. -/
theorem running_of_instruction? {i : Instruction} (h : e.instruction? = some i) :
    e.phase = .running := by
  unfold instruction? at h
  split at h
  · assumption
  · cases h

/-- An ordered execution is isolated unless the next instruction overreaches. -/
theorem isolated_of_ordered (hsys : sys.Blind) (hm : e.machine.Ordered) (h : ¬e.Overreaches) :
    e.Isolated sys := by
  have horderly := orderly_step hsys e hm.stackFloor_le h
  have hfloor (f : Frame) (hf : f ∈ e.machine.frames) : f.stackBase ≤ e.machine.stackFloor := by
    have hle := hm.le_stackFloor (Array.mem_map_of_mem hf : f.outline ∈ e.machine.calls)
    exact hle
  constructor
  · intro f hf k hk
    have hlt := Nat.lt_of_lt_of_le hk (hfloor f hf)
    exact horderly.affects.shares k hlt
  · intro f hf lower hlower
    have hle := hfloor f hf
    rw [← hlower] at hle
    exact horderly.blind lower hle
  · intro i hi hown
    obtain ⟨hdecode, hstep⟩ := step_of_instruction? sys hi
    have hfits : ¬e.machine.Overreaches i := fun hover => h ⟨i, hi, hover⟩
    have hrespects := Machine.respects_executeNext hm.stackFloor_le hdecode hfits
    have hunderflow := hrespects.underflow hown
    unfold Action.Ends at hunderflow
    rw [hstep]
    unfold advance
    cases hact : Machine.executeNext e.machine with
    | ok a m' =>
      rw [hact] at hunderflow
      cases hunderflow
    | error error m' =>
      rw [hact] at hunderflow
      obtain ⟨rfl, hfault⟩ := hunderflow
      constructor
      · rfl
      intro hready
      rw [hready] at hfault
      change (m'.recordFault e.machine.pc .stackUnderflow).fault = _
      unfold Machine.recordFault
      rw [hfault]

/-- An isolated execution does not overreach: an overreaching instruction does not fault for want
of operands. -/
theorem Isolated.not_overreaches (h : e.Isolated sys) : ¬e.Overreaches := by
  rintro ⟨i, hi, hover⟩
  obtain ⟨hdecode, hstep⟩ := step_of_instruction? sys hi
  have hphase := (h.underflow i hi hover.2.1).1
  have hover' : ({ e.machine with pc := e.machine.pc + i.size } : Machine ν).Overreaches i := hover
  have hends := Machine.ends_execute_of_overreaches hover'
  unfold Action.Ends at hends
  rw [← Machine.executeNext_eq hdecode] at hends
  rw [hstep] at hphase
  unfold advance at hphase
  cases hact : Machine.executeNext e.machine with
  | ok a m' =>
    rw [hact] at hphase
    cases a <;> cases hphase
  | error error m' =>
    rw [hact] at hphase hends
    cases hphase
    exact hends rfl

/-- Steps with more frames than the given number, none of which overreaches. -/
inductive Above (sys : NativeSystem ν κ σ) (depth : Nat) (e : Execution ν κ σ) :
    Execution ν κ σ → Prop where
  | refl (hdeep : depth < e.machine.frames.size) : Above sys depth e e
  | step {e' : Execution ν κ σ} (h : Above sys depth e e') (hfits : ¬e'.Overreaches)
      (hdeep : depth < (e'.step sys).machine.frames.size) : Above sys depth e (e'.step sys)

/-- The next instruction is a call, and the execution goes on after it: the steps in between have
more frames and do not overreach, and the last one goes back to as many as before. -/
inductive Returns (sys : NativeSystem ν κ σ) (argumentCount : UInt8) (e : Execution ν κ σ) :
    Execution ν κ σ → Prop where
  | after {e' : Execution ν κ σ} (hcall : e.instruction? = some (.call argumentCount))
      (habove : Above sys e.machine.frames.size (e.step sys) e') (hfits : ¬e'.Overreaches)
      (hdepth : (e'.step sys).machine.frames.size = e.machine.frames.size)
      (hrunning : (e'.step sys).phase = .running) : Returns sys argumentCount e (e'.step sys)

end Execution

namespace Machine

variable {ν : Type} {m m' m₁ : Machine ν} {success : Prop} {calls : Array Frame} {f : Frame}

/-- The called value and its arguments have been replaced by one result, the machine is back in
the same call, and goes on after the instruction. -/
def Replaces (argumentCount : UInt8) (m m' : Machine ν) : Prop :=
  ∃ (below operands : Array Value) (result : Value), m.stack = below ++ operands ∧
    operands.size = argumentCount.toNat + 1 ∧ m'.stack = below.push result ∧
    m'.calls = m.calls ∧ m'.pc = m.pc + (Instruction.call argumentCount).size

/-- What is shared and one value more. -/
theorem exists_push_of_shares {k : Nat} (h : m.Shares k m') (hk : k ≤ m.stack.size)
    (hsize : m'.stack.size = k + 1) : ∃ v, m'.stack = (m.stack.shrink k).push v := by
  obtain ⟨below, v, hstack⟩ := Array.eq_push_of_size_ne_zero (by omega : m'.stack.size ≠ 0)
  have hbelow : below.size = k := by
    rw [hstack, Array.size_push] at hsize
    omega
  have heq : below = m.stack.shrink k := by
    apply Array.ext_getElem?
    intro n
    by_cases hn : n < k
    · have hshared := h n hn
      rw [hstack, Array.getElem?_push_lt (by omega)] at hshared
      rw [Array.getElem?_eq_getElem (by omega), hshared, Array.shrink_eq_take,
        Array.take_eq_extract, Array.getElem?_extract]
      grind
    · rw [Array.getElem?_eq_none (by omega), Array.getElem?_eq_none]
      rw [Array.size_shrink]
      omega
  exact ⟨v, by rw [hstack, heq]⟩

/-- Work goes on in the frame or above it, and what belongs to its callers is as it was. -/
structure Inside (calls : Array Frame) (f : Frame) (m₁ m : Machine ν) : Prop where
  ordered : m.Ordered
  deep : calls.size < m.calls.size
  outer : ∀ k ≤ calls.size, m.calls[k]? = (calls.push f)[k]?
  shares : m₁.Shares f.stackBase m

/-- The frame in which work goes on is one of those in progress. -/
theorem Inside.mem (h : Inside calls f m₁ m) : f ∈ m.calls := by
  have hf := h.outer calls.size (Nat.le_refl _)
  rw [Array.getElem?_push_size] at hf
  exact Array.mem_of_getElem? hf

/-- Whatever happens above the callers does not change what belongs to them. -/
theorem Inside.shares_affects (h : Inside calls f m₁ m) (haffects : m.Affects success m') :
    m₁.Shares f.stackBase m' :=
  h.shares.trans (haffects.shares.mono (h.ordered.le_stackFloor h.mem))

/-- Work that does not leave the frame goes on inside it. -/
theorem Inside.affects (h : Inside calls f m₁ m) (haffects : m.Affects success m')
    (hdeep : calls.size < m'.calls.size) : Inside calls f m₁ m' where
  ordered := haffects.ordered h.ordered
  deep := hdeep
  outer k hk := by
    have hsize := h.deep
    rw [haffects.getElem?_calls (by omega) (by omega)]
    exact h.outer k hk
  shares := h.shares_affects haffects

/-- When the frame is left with success, its result is on top of what belongs to the caller. -/
theorem Inside.leaves (h : Inside calls f m₁ m) (haffects : m.Affects success m')
    (hsuccess : success) (hkind : f.kind ≠ .script) (hsize : m'.calls.size = calls.size) :
    m'.calls = calls ∧ m'.stack.size = f.stackBase + 1 ∧ m'.pc = f.returnPc := by
  have hdeep := h.deep
  have hleft {g : Frame} (hcalls : m.calls = m'.calls.push g) : m'.calls = calls ∧ g = f := by
    have hg := h.outer calls.size (Nat.le_refl _)
    rw [Array.getElem?_push_size, hcalls, ← hsize, Array.getElem?_push_size] at hg
    refine ⟨?_, Option.some.inj hg⟩
    apply Array.ext_getElem?
    intro k
    by_cases hk : k < calls.size
    · have houter := h.outer k (by omega)
      rw [hcalls, Array.getElem?_push_lt (by omega), Array.getElem?_push_lt hk] at houter
      rw [Array.getElem?_eq_getElem (by omega), Array.getElem?_eq_getElem hk]
      exact houter
    · rw [Array.getElem?_eq_none (by omega), Array.getElem?_eq_none (by omega)]
  cases haffects with
  | work hcalls _ _ =>
    rw [hcalls] at hsize
    omega
  | enter g hcalls _ _ _ =>
    rw [hcalls, Array.size_push] at hsize
    omega
  | ret g hcalls _ hstack hpc =>
    obtain ⟨hcalls', rfl⟩ := hleft hcalls
    exact ⟨hcalls', hstack, hpc⟩
  | leave g hcalls _ _ hscript =>
    obtain ⟨_, rfl⟩ := hleft hcalls
    exact absurd (hscript hsuccess) hkind

end Machine

namespace Execution

variable {ν κ σ : Type} {sys : NativeSystem ν κ σ} {e e' : Execution ν κ σ}
  {argumentCount : UInt8}

/-- A call that does not fail makes a frame of its operands. -/
theorem enters_of_call (hcall : e.instruction? = some (.call argumentCount))
    (hdeep : e.machine.frames.size < (e.step sys).machine.frames.size) :
    ∃ f : Frame, (e.step sys).machine.calls = e.machine.calls.push f ∧ f.kind ≠ .script ∧
      f.returnPc = e.machine.pc + (Instruction.call argumentCount).size ∧
      e.machine.stack.size = f.stackBase + (argumentCount.toNat + 1) ∧
      (e.step sys).machine.stack = e.machine.stack.shrink f.stackBase := by
  obtain ⟨hdecode, hstep⟩ := step_of_instruction? sys hcall
  let m : Machine ν :=
    { e.machine with pc := e.machine.pc + (Instruction.call argumentCount).size }
  have hframe (kind : FrameKind) (base : Nat) : (m.enterFrame kind base).calls =
      e.machine.calls.push ⟨kind, m.pc, #[], base⟩ := Array.map_push
  have hends : Action.Ends (Machine.call argumentCount.toNat) m
      (fun _ m' => ∃ f : Frame, m'.calls = e.machine.calls.push f ∧ f.kind ≠ .script ∧
        f.returnPc = m.pc ∧ m.stack.size = f.stackBase + (argumentCount.toNat + 1) ∧
        m'.stack = e.machine.stack.shrink f.stackBase)
      fun _ m' => m' = m :=
    Machine.ends_call
      (fun base _ hsize _ _ => ⟨_, hframe .function base, (nomatch ·), rfl, hsize, rfl⟩)
      (fun base _ _ hsize _ _ _ => ⟨_, hframe .native base, (nomatch ·), rfl, hsize, rfl⟩)
      (fun _ => rfl) (fun _ => rfl) (fun _ _ _ _ _ => rfl) fun _ => rfl
  have hexecute : Machine.executeNext e.machine = Machine.call argumentCount.toNat m :=
    Machine.executeNext_eq hdecode
  unfold Action.Ends at hends
  rw [← hexecute] at hends
  rw [hstep] at hdeep ⊢
  unfold advance at hdeep ⊢
  cases hact : Machine.executeNext e.machine with
  | ok a m' =>
    rw [hact] at hends
    cases a <;> exact hends
  | error error m' =>
    -- A call that fails makes no frame.
    rw [hact] at hends hdeep
    have hframes : (m'.recordFault e.machine.pc error).frames = e.machine.frames := by
      rw [hends]
      unfold Machine.recordFault
      split <;> rfl
    have hsize := congrArg Array.size hframes
    exact absurd hdeep (by rw [Nat.not_lt]; exact Nat.le_of_eq hsize)

/-- Steps above a depth start above it. -/
theorem Above.deep {depth : Nat} (h : Above sys depth e e') :
    depth < e.machine.frames.size := by
  induction h with
  | refl hdeep => exact hdeep
  | step _ _ _ ih => exact ih

/-- Above the callers everything that belongs to them stays. -/
theorem Above.inside (hsys : sys.Blind) {m : Machine ν} {f : Frame}
    (h : Above sys m.frames.size e e')
    (hinside : Machine.Inside m.calls f e.machine e.machine) :
    Machine.Inside m.calls f e.machine e'.machine := by
  have hsize (m : Machine ν) : m.calls.size = m.frames.size := Array.size_map
  induction h with
  | refl _ => exact hinside
  | @step e' _ hfits hdeep ih =>
    apply ih.affects (affects_step hsys ih.ordered.stackFloor_le hfits)
    rw [hsize, hsize]
    exact hdeep

/-- A call that returns replaces the called value and its arguments by one result. -/
theorem Returns.replaces (hsys : sys.Blind) (hm : e.machine.Ordered) (hfits : ¬e.Overreaches)
    (h : e.Returns sys argumentCount e') : e.machine.Replaces argumentCount e'.machine := by
  have hsize (m : Machine ν) : m.calls.size = m.frames.size := Array.size_map
  obtain ⟨hcall, habove, hfits', hdepth, hrunning⟩ := h
  rename_i e'
  obtain ⟨f, hcalls, hkind, hpc, hoperands, hstack⟩ := enters_of_call hcall habove.deep
  have haffects := affects_step hsys hm.stackFloor_le hfits
  have hinside : Machine.Inside e.machine.calls f (e.step sys).machine (e.step sys).machine := by
    refine ⟨haffects.ordered hm, ?_, fun k _ => by rw [hcalls], fun _ _ => rfl⟩
    rw [hcalls, Array.size_push]
    omega
  have hinside' := habove.inside hsys hinside
  have haffects' := affects_step hsys hinside'.ordered.stackFloor_le hfits'
  have hback : (e'.step sys).machine.calls.size = e.machine.calls.size := by
    rw [hsize, hsize]
    exact hdepth
  obtain ⟨hcalls', hstack', hpc'⟩ := hinside'.leaves haffects' hrunning hkind hback
  have hshares := hinside'.shares_affects haffects'
  obtain ⟨result, hresult⟩ :=
    Machine.exists_push_of_shares ((Machine.shares_shrink hstack).trans hshares) (by omega) hstack'
  have hsplit : e.machine.stack = e.machine.stack.shrink f.stackBase ++
      e.machine.stack.extract f.stackBase e.machine.stack.size := by
    have hmax : max f.stackBase e.machine.stack.size = e.machine.stack.size := by omega
    rw [Array.shrink_eq_take, Array.take_eq_extract]
    simp [hmax]
  have hcount : (e.machine.stack.extract f.stackBase e.machine.stack.size).size =
      argumentCount.toNat + 1 := by
    rw [Array.size_extract]
    omega
  exact ⟨_, _, result, hsplit, hcount, hresult, hcalls', hpc'.trans hpc⟩

end Execution

/-- The stages of a machine from its loading on, the latest first. -/
inductive Stage.History {σ : Type} : List (Stage σ) → Prop where
  | load {image : Bytes} {program : Program} (h : Program.ofBytes image = .ok program)
      (limits : Limits) (contextId : UInt16) : History [.idle (.loaded program limits contextId)]
  | next {s s' : Stage σ} {past : List (Stage σ)} (h : History (s :: past)) (hnext : s.Next s') :
      History (s' :: s :: past)
  | release {m : Machine Native} {past : List (Stage σ)} (h : History (.idle m :: past)) :
      History (.idle m.released :: .idle m :: past)

namespace Stage

variable {σ : Type} {s s' : Stage σ} {stages : List (Stage σ)}

/-- Whatever has been reached has a history. -/
theorem Reached.exists_history (h : s.Reached) : ∃ past, History (s :: past) := by
  induction h with
  | load h limits contextId => exact ⟨[], .load h limits contextId⟩
  | next _ hnext ih =>
    obtain ⟨past, hhistory⟩ := ih
    exact ⟨_, hhistory.next hnext⟩
  | release _ ih =>
    obtain ⟨past, hhistory⟩ := ih
    exact ⟨_, hhistory.release⟩

/-- Every execution under way on a bridge has a history. -/
theorem exists_history_of_underway {b : Bridge σ} {e : Execution Native Traversal σ}
    (h : b.Reachable) (he : b.Underway e) : ∃ past, History (.busy e :: past) :=
  (h.reached_underway he).exists_history

/-- A machine that is loaded is ordered. -/
theorem ordered_loaded (program : Program) (limits : Limits) (contextId : UInt16) :
    (Machine.loaded program limits contextId).Ordered := by
  unfold Machine.loaded
  rw [Machine.new_eq]
  exact Machine.ordered_of_idle rfl

/-- Taking a message keeps a machine ordered. -/
theorem ordered_nextDelivery {m m' : Machine Native} {w w' : World σ}
    {delivery : Option (Value × List Value)} (hm : m.Ordered)
    (h : m.nextDelivery w = (delivery, m', w')) : m'.Ordered := by
  have hm' : m' = (m.nextDelivery w).2.1 := by rw [h]
  rw [hm']
  exact ⟨hm.ascend, hm.fit⟩

/-- A move keeps the machine ordered, unless it carries out an instruction that overreaches. -/
theorem Next.ordered (h : s.Next s') (hs : s.machine.Ordered)
    (hfits : ∀ e, s = .busy e → ¬e.Overreaches) : s'.machine.Ordered := by
  cases h with
  | change _ => exact ⟨hs.ascend, hs.fit⟩
  | drop hnext => exact ordered_nextDelivery hs hnext
  | hear hnext =>
    have hm := ordered_nextDelivery hs hnext
    exact (Execution.orderly_startCall hm.stackFloor_le _ _).affects.ordered hm
  | body m w => exact (Execution.orderly_startScript hs.stackFloor_le).affects.ordered hs
  | call m w name =>
    exact (Execution.orderly_startCall hs.stackFloor_le _ _).affects.ordered hs
  | step hooks e =>
    have haffects := Execution.affects_step (Native.blind_system hooks) hs.stackFloor_le
      (hfits e rfl)
    exact haffects.ordered hs
  | leave m w activation result => exact hs

/-- Without overreaching instructions all stages of a history are ordered. -/
theorem History.ordered (h : History stages)
    (hfits : ∀ e, .busy e ∈ stages → ¬e.Overreaches) : ∀ s ∈ stages, s.machine.Ordered := by
  induction h with
  | load h limits contextId =>
    intro s hs
    rw [List.mem_singleton.mp hs]
    exact ordered_loaded _ limits contextId
  | @next s s' past _ hnext ih =>
    have hpast := ih fun e he => hfits e (List.mem_cons_of_mem _ he)
    intro t ht
    rcases List.mem_cons.mp ht with rfl | ht
    · refine hnext.ordered (hpast s List.mem_cons_self) fun e he => hfits e ?_
      simp [he]
    · exact hpast t ht
  | @release m past _ ih =>
    have hpast := ih fun e he => hfits e (List.mem_cons_of_mem _ he)
    intro t ht
    rcases List.mem_cons.mp ht with rfl | ht
    · have hm : m.Ordered := hpast (.idle m) List.mem_cons_self
      exact ⟨hm.ascend, hm.fit⟩
    · exact hpast t ht

/-- Frames are isolated throughout a history exactly if no instruction overreaches, and then every
call that returns replaces the called value and its arguments by one result. -/
theorem History.isolates (h : History stages) :
    ((∀ e, .busy e ∈ stages → ∀ hooks, e.Isolated (Native.system hooks)) ↔
      ∀ e, .busy e ∈ stages → ¬e.Overreaches) ∧
    ((∀ e, .busy e ∈ stages → ¬e.Overreaches) →
      ∀ e, .busy e ∈ stages → ∀ hooks argumentCount e',
        e.Returns (Native.system hooks) argumentCount e' →
          e.machine.Replaces argumentCount e'.machine) := by
  constructor
  · constructor
    · intro hisolated e he
      exact (hisolated e he (.empty 0)).not_overreaches
    · intro hfits e he hooks
      have hm := h.ordered hfits _ he
      exact Execution.isolated_of_ordered (Native.blind_system hooks) hm (hfits e he)
  · intro hfits e he hooks argumentCount e' hreturns
    have hm := h.ordered hfits _ he
    exact hreturns.replaces (Native.blind_system hooks) hm (hfits e he)

/-- The body of a script after some steps. -/
def bodyAfter (program : Program) : Nat → Execution Native Traversal Unit
  | 0 => .startScript (.loaded program {} 0) { host := () } []
  | n + 1 => (bodyAfter program n).step (Native.system (.empty 0))

/-- The stages of the body of a script up to its fourth step. -/
def opening (program : Program) : List (Stage Unit) :=
  [.busy (bodyAfter program 3), .busy (bodyAfter program 2), .busy (bodyAfter program 1),
    .busy (bodyAfter program 0), .idle (.loaded program {} 0)]

/-- The stages are a history. -/
theorem history_opening {image : Bytes} {program : Program}
    (h : Program.ofBytes image = .ok program) : History (opening program) :=
  ((((History.load h {} 0).next (.body _ _)).next (.step _ _)).next (.step _ _)).next (.step _ _)

/-- A script that pushes a value and calls a function, which returns the empty value. -/
def lender : Bytes :=
  [0x48, 0x49, 0x56, 0x45, 1, 0, 0, 14, 0, 0, 0, 3, 7, 0, 0, 0, 6, 13, 0, 0, 0, 16, 0, 0, 17]

/-- The same, but the function duplicates a value without having pushed one. -/
def borrower : Bytes :=
  [0x48, 0x49, 0x56, 0x45, 1, 0, 0, 15, 0, 0, 0, 3, 7, 0, 0, 0, 6, 13, 0, 0, 0, 16, 0, 0, 8, 18]

/-- The call of the lender leaves the value of the caller alone. -/
theorem History.isolates_lender : ∃ (program : Program) (e : Execution Native Traversal Unit),
    Program.ofBytes lender = .ok program ∧ History (opening program) ∧ .busy e ∈ opening program ∧
      e.Isolated (Native.system (.empty 0)) ∧ e.instruction? = some (.call 0) ∧
      e.machine.Replaces 0 (bodyAfter program 4).machine := by
  have hcheck : (Program.ofBytes lender).toOption.any fun program => decide (
      (¬(bodyAfter program 3).Overreaches ∧ ¬(bodyAfter program 2).Overreaches ∧
        ¬(bodyAfter program 1).Overreaches ∧ ¬(bodyAfter program 0).Overreaches) ∧
      (bodyAfter program 2).instruction? = some (.call 0) ∧
      (bodyAfter program 2).machine.frames.size = 1 ∧
      (bodyAfter program 3).machine.frames.size = 2 ∧
      (bodyAfter program 4).machine.frames.size = 1 ∧
      (bodyAfter program 4).instruction? = some .done) := by
    decide +kernel
  cases hprogram : Program.ofBytes lender with
  | error e =>
    rw [hprogram] at hcheck
    cases hcheck
  | ok program =>
    rw [hprogram] at hcheck
    change decide _ = true at hcheck
    obtain ⟨⟨hfits₃, hfits₂, hfits₁, hfits₀⟩, hcall, hbefore, hinside, hafter, hdone⟩ :=
      of_decide_eq_true hcheck
    have hhistory := history_opening hprogram
    obtain ⟨hisolated, hreplaces⟩ := History.isolates hhistory
    have hnone (e : Execution Native Traversal Unit) (he : .busy e ∈ opening program) :
        ¬e.Overreaches := by
      simp only [opening, List.mem_cons, Stage.busy.injEq, List.not_mem_nil, or_false,
        reduceCtorEq] at he
      rcases he with rfl | rfl | rfl | rfl
      · exact hfits₃
      · exact hfits₂
      · exact hfits₁
      · exact hfits₀
    have hmem : .busy (bodyAfter program 2) ∈ opening program := by simp [opening]
    have hreturns : (bodyAfter program 2).Returns (Native.system (.empty 0)) 0
        (bodyAfter program 4) := by
      have hdeep : (bodyAfter program 2).machine.frames.size <
          (bodyAfter program 3).machine.frames.size := by omega
      exact .after hcall (.refl hdeep) hfits₃ (hafter.trans hbefore.symm)
        (Execution.running_of_instruction? hdone)
    exact ⟨program, _, rfl, hhistory, hmem, hisolated.mpr hnone _ hmem _, hcall,
      hreplaces hnone _ hmem _ _ _ hreturns⟩

/-- The function of the borrower does not fault: it duplicates the value of its caller. -/
theorem History.borrows : ∃ (program : Program) (e : Execution Native Traversal Unit),
    Program.ofBytes borrower = .ok program ∧ History (opening program) ∧ .busy e ∈ opening program ∧
      e.instruction? = some .dup ∧ e.machine.own = 0 ∧
      (e.step (Native.system (.empty 0))).machine.isReady = true ∧
      ¬e.Isolated (Native.system (.empty 0)) := by
  have hcheck : (Program.ofBytes borrower).toOption.any fun program => decide (
      (bodyAfter program 3).instruction? = some .dup ∧ (bodyAfter program 3).machine.own = 0 ∧
        (bodyAfter program 3).Overreaches ∧ (bodyAfter program 4).machine.isReady = true) := by
    decide +kernel
  cases hprogram : Program.ofBytes borrower with
  | error e =>
    rw [hprogram] at hcheck
    cases hcheck
  | ok program =>
    rw [hprogram] at hcheck
    change decide _ = true at hcheck
    obtain ⟨hdup, hown, hover, hready⟩ := of_decide_eq_true hcheck
    exact ⟨program, bodyAfter program 3, rfl, history_opening hprogram, List.mem_cons_self, hdup,
      hown, hready, fun hisolated => hisolated.not_overreaches hover⟩

end Stage

end Swarm
