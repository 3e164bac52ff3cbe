import Swarm.Proofs.HookCalls

/-!
# The start of an execution

A ready machine that is entered at the body of its script is about to carry out
the first instruction. When a value is called, the machine is about to carry out
the called function, with the function and the arguments as local symbols. A call
is refused only for want of room or because the value is no function that is known;
then the machine has faulted.
-/

namespace Swarm

namespace Machine

open Swarm.Action

variable {ν : Type} {m : Machine ν} {callee : Value} {arguments : List Value}

/-- What a value must be to be called: a function of the script, or a native function that is
registered. -/
inductive Knows (m : Machine ν) : Value → Prop where
  | script (address : UInt32) : Knows m (.closure (.script address))
  | native {id : Nat} {entry : NamedNative ν} (hentry : m.store.natives[id]? = some entry) :
      Knows m (.closure (.native id))

/-- There is room for a call, and the called value is a function. -/
structure Admits (m : Machine ν) (callee : Value) (arguments : List Value) : Prop where
  depth : m.frames.size < m.limits.maxCallDepth
  room : m.stack.size + arguments.length < m.limits.maxStack
  known : m.Knows callee

/-- A call that is admitted is made. -/
theorem Admits.exists_pushCall (h : m.Admits callee arguments) :
    ∃ called m', pushCall callee arguments m = .ok called m' := by
  obtain ⟨hdepth, hroom, hknown⟩ := h
  let m₁ : Machine ν := { m with stack := m.stack.push callee ++ arguments.toArray }
  have hstack : m₁.stack.toList = m.stack.toList ++ callee :: arguments := by simp [m₁]
  have hcall : pushCall callee arguments m = m₁.callee m.stack.toList.length callee :=
    (pushCall_eq hroom).trans (call_eq_of_toList hstack hdepth)
  rw [hcall]
  cases hknown with
  | script address => exact ⟨_, _, rfl⟩
  | @native id entry hentry =>
    have hentry' : m₁.store.natives[id]? = some entry := hentry
    simp only [Machine.callee, hentry']
    exact ⟨_, _, rfl⟩

/-- Values that are pushed are on top of the stack in their order. -/
theorem ends_forM_push (values : List Value) (m : Machine ν) : Ends (values.forM push) m
    (fun _ m' => m' = { m with stack := m.stack ++ values.toArray }) fun _ _ => True := by
  induction values generalizing m with
  | nil =>
    change m = { m with stack := m.stack ++ (#[] : Array Value) }
    rw [Array.append_empty]
  | cons v rest ih =>
    have hpush : Ends (push v) m (fun _ m' => m' = { m with stack := m.stack.push v })
        fun _ _ => True := ends_push (fun _ => rfl) fun _ => trivial
    refine hpush.bind fun _ m₁ h₁ => (ih m₁).imp (fun _ m₂ h₂ => ?_) fun _ _ _ => trivial
    rw [h₂, h₁]
    simp

/-- What a call that is made finds: the called value with its arguments as local symbols, and the
code of the function or the native function. -/
theorem ends_pushCall_made (callee : Value) (arguments : List Value) (m : Machine ν) :
    Ends (pushCall callee arguments) m
      (fun called m' => m'.frames.back?.map Frame.locals = some (callee :: arguments).toArray ∧
        ((∃ address, callee = .closure (.script address) ∧ called = none ∧
            m'.pc = address.toNat) ∨
          ∃ id entry, callee = .closure (.native id) ∧ m'.store.natives[id]? = some entry ∧
            called = some entry.native))
      fun _ _ => True := by
  have hpush : Ends (push callee) m
      (fun _ m' => m' = { m with stack := m.stack.push callee }) fun _ _ => True :=
    ends_push (fun _ => rfl) fun _ => trivial
  refine hpush.bind fun _ m₁ h₁ => (ends_forM_push arguments m₁).bind fun _ m₂ h₂ => ?_
  -- The base of the new frame is where the called value lies, below its arguments.
  have hstack : m₂.stack.toList = m.stack.toList ++ callee :: arguments := by
    rw [h₂, h₁]
    simp
  have hbase {base : Nat} (hsize : m₂.stack.size = base + (arguments.length + 1)) :
      m.stack.toList.length = base := by
    rw [← Array.length_toList, hstack, List.length_append, List.length_cons] at hsize
    omega
  have hcallee {base : Nat} {v : Value} (hsize : m₂.stack.size = base + (arguments.length + 1))
      (hv : m₂.stack[base]? = some v) : callee = v := by
    rw [← hbase hsize, ← Array.getElem?_toList, hstack, List.getElem?_append_right (Nat.le_refl _),
      Nat.sub_self, List.getElem?_cons_zero] at hv
    exact Option.some.inj hv
  have hlocals {base : Nat} (hsize : m₂.stack.size = base + (arguments.length + 1)) :
      m₂.stack.extract base m₂.stack.size = (callee :: arguments).toArray := by
    rw [← hbase hsize]
    exact Array.toList_inj.mp (toList_extract_callee hstack)
  refine ends_call (fun base address hsize _ hv => ?_) (fun base id entry hsize _ hv hentry => ?_)
    (fun _ => trivial) (fun _ => trivial) (fun _ _ _ _ _ => trivial) fun _ => trivial
  · refine ⟨?_, .inl ⟨address, hcallee hsize hv, rfl, rfl⟩⟩
    rw [← hlocals hsize]
    simp [enterFrame]
  · refine ⟨?_, .inr ⟨id, entry, hcallee hsize hv, hentry, rfl⟩⟩
    rw [← hlocals hsize]
    simp [enterFrame]

end Machine

namespace Execution

variable {ν κ σ : Type} {e : Execution ν κ σ}

/-- The body of the script is about to be carried out, from its first instruction. -/
structure StartsBody (e : Execution ν κ σ) : Prop where
  kind : e.machine.frames.back?.map Frame.kind = some .script
  phase : e.phase = .running
  pc : e.machine.pc = 0

/-- A ready machine starts the body of its script. -/
theorem startsBody_startScript {m : Machine ν} (hready : m.isReady = true) (w : World σ)
    (waiting : List (Suspended κ)) : (startScript m w waiting).StartsBody := by
  unfold startScript
  rw [if_pos hready]
  exact ⟨by simp [Machine.enterScript], rfl, rfl⟩

/-- The value is about to be carried out as a function, with itself and the arguments as local
symbols. -/
structure StartsCall (e : Execution ν κ σ) (callee : Value) (arguments : List Value) : Prop where
  locals : e.machine.frames.back?.map Frame.locals = some (callee :: arguments).toArray
  code : (∃ address, callee = .closure (.script address) ∧ e.phase = .running ∧
      e.machine.pc = address.toNat) ∨
    ∃ id entry, callee = .closure (.native id) ∧ e.machine.store.natives[id]? = some entry ∧
      e.phase = .entering entry.native none

/-- A call is made, or it fails at once. -/
theorem startsCall_startCall (m : Machine ν) (w : World σ) (waiting : List (Suspended κ))
    (callee : Value) (arguments : List Value) :
    (startCall m w waiting callee arguments).StartsCall callee arguments ∨
      ∃ error, (startCall m w waiting callee arguments).phase = .leaving (.error error) := by
  have hends := Machine.ends_pushCall_made callee arguments m
  unfold Action.Ends at hends
  unfold startCall
  dsimp only
  split
  · split <;> rename_i heq <;> rw [heq] at hends
    · obtain ⟨hlocals, ⟨address, hcallee, _, hpc⟩ | ⟨_, _, _, _, hcalled⟩⟩ := hends
      · exact .inl ⟨hlocals, .inl ⟨address, hcallee, rfl, hpc⟩⟩
      · cases hcalled
    · obtain ⟨hlocals, ⟨_, _, hcalled, _⟩ | ⟨id, entry, hcallee, hentry, hcalled⟩⟩ := hends
      · cases hcalled
      · cases hcalled
        exact .inl ⟨hlocals, .inr ⟨id, entry, hcallee, hentry, rfl⟩⟩
    · exact .inr ⟨_, rfl⟩
  · exact .inr ⟨_, rfl⟩

/-- The call has been refused: it is not admitted, and the machine has faulted. -/
structure Refused (e : Execution ν κ σ) (m : Machine ν) (callee : Value)
    (arguments : List Value) : Prop where
  admits : ¬m.Admits callee arguments
  phase : ∃ error, e.phase = .leaving (.error error)
  faulted : e.machine.isReady = false

/-- A ready machine starts a call or refuses it. -/
theorem startsCall_or_refused {m : Machine ν} (hready : m.isReady = true) (w : World σ)
    (waiting : List (Suspended κ)) (callee : Value) (arguments : List Value) :
    (startCall m w waiting callee arguments).StartsCall callee arguments ∨
      (startCall m w waiting callee arguments).Refused m callee arguments := by
  refine (startsCall_startCall m w waiting callee arguments).imp_right fun hleaving => ?_
  refine ⟨fun hadmits => ?_, hleaving, ?_⟩ <;> simp only [startCall, if_pos hready] at hleaving ⊢
  · obtain ⟨called, m', hcall⟩ := hadmits.exists_pushCall
    rw [hcall] at hleaving
    cases called <;> simp at hleaving
  · split at hleaving
    · simp at hleaving
    · simp at hleaving
    · exact isReady_recordFault _ _

end Execution

end Swarm
