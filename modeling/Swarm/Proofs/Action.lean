import Swarm.Machine.Execution

/-!
# How actions end

Statements about an action say where it ends if it succeeds and where it ends if
it fails. Such statements are put together along the parts of an action. For each
operation on the stack and the frames there is one rule that lists everything the
operation can do.
-/

namespace Swarm

namespace Action

variable {ν α β : Type} {m : Machine ν} {act : Action ν α} {next : α → Action ν β}
  {ends ends' : α → Machine ν → Prop} {endsNext : β → Machine ν → Prop}
  {fails fails' : RuntimeError → Machine ν → Prop}

/-- Started in a machine, the action ends as `ends` says if it succeeds, and as `fails` says if it
fails. -/
def Ends (act : Action ν α) (m : Machine ν) (ends : α → Machine ν → Prop)
    (fails : RuntimeError → Machine ν → Prop) : Prop :=
  match act m with
  | .ok a m' => ends a m'
  | .error e m' => fails e m'

/-- What is said of the ends of an action may be weakened. -/
theorem Ends.imp (h : Ends act m ends fails) (hends : ∀ a m', ends a m' → ends' a m')
    (hfails : ∀ e m', fails e m' → fails' e m') : Ends act m ends' fails' := by
  unfold Ends at h ⊢
  cases hact : act m with
  | ok a m' =>
    rw [hact] at h
    exact hends a m' h
  | error e m' =>
    rw [hact] at h
    exact hfails e m' h

/-- Doing nothing ends as it began. -/
theorem ends_pure {a : α} (h : ends a m) : Ends (pure a) m ends fails := h

/-- After a success the second action goes on. -/
theorem bind_ok {a : α} {m' : Machine ν} (h : act m = .ok a m') :
    (act >>= next) m = next a m' := by
  simp only [bind, EStateM.bind, h]

/-- After a failure the second action is left out. -/
theorem bind_error {e : RuntimeError} {m' : Machine ν} (h : act m = .error e m') :
    (act >>= next) m = .error e m' := by
  simp only [bind, EStateM.bind, h]

/-- Two actions one after the other end as the second one does, unless the first one fails. -/
theorem Ends.bind (h : Ends act m ends fails)
    (hnext : ∀ a m', ends a m' → Ends (next a) m' endsNext fails) :
    Ends (act >>= next) m endsNext fails := by
  unfold Ends at h ⊢
  cases hact : act m with
  | ok a m' =>
    rw [hact] at h
    rw [bind_ok hact]
    exact hnext a m' h
  | error e m' =>
    rw [hact] at h
    rw [bind_error hact]
    exact h

end Action

namespace Machine

open Swarm.Action

variable {ν α : Type} {m : Machine ν} {fails : RuntimeError → Machine ν → Prop}

/-- A pushed value is on top, or there was no room for it. -/
theorem ends_push {v : Value} {ends : Unit → Machine ν → Prop}
    (hok : m.stack.size < m.limits.maxStack → ends () { m with stack := m.stack.push v })
    (herror : m.limits.maxStack ≤ m.stack.size → fails .stackOverflow m) :
    Ends (push v) m ends fails := by
  unfold Ends push
  by_cases hfull : m.limits.maxStack ≤ m.stack.size
  · simpa only [if_pos hfull] using herror hfull
  · simpa only [if_neg hfull] using hok (by omega)

/-- A popped value was on top and above the floor, or there was none. -/
theorem ends_pop {ends : Value → Machine ν → Prop}
    (hok : ∀ (rest : Array Value) (v : Value), m.stack = rest.push v → m.stackFloor ≤ rest.size →
      ends v { m with stack := rest })
    (herror : m.stack.size ≤ m.stackFloor → fails .stackUnderflow m) :
    Ends pop m ends fails := by
  unfold Ends pop
  by_cases hfloor : m.stack.size ≤ m.stackFloor
  · simpa only [if_pos hfloor] using herror hfloor
  · have hsome : m.stack.size ≠ 0 := by omega
    obtain ⟨rest, v, hstack⟩ := Array.eq_push_of_size_ne_zero hsome
    have hsize : m.stack.size = rest.size + 1 := by rw [hstack, Array.size_push]
    have hrest := hok rest v hstack (by omega)
    rw [if_neg hfloor]
    simpa only [hstack, Array.back?_push, Array.pop_push] using hrest

/-- The topmost value is the last one of the whole stack. -/
theorem ends_top {ends : Value → Machine ν → Prop}
    (hok : ∀ (rest : Array Value) (v : Value), m.stack = rest.push v → ends v m)
    (herror : m.stack.size = 0 → fails .stackUnderflow m) : Ends top m ends fails := by
  unfold Ends top
  by_cases hempty : m.stack.size = 0
  · have hstack : m.stack = #[] := Array.eq_empty_of_size_eq_zero hempty
    simpa only [hstack, Array.back?_empty] using herror hempty
  · obtain ⟨rest, v, hstack⟩ := Array.eq_push_of_size_ne_zero hempty
    simpa only [hstack, Array.back?_push] using hok rest v hstack

/-- A call needs operands, room for a frame and a function; what is called lies below the
arguments. -/
theorem ends_call {n : Nat} {ends : Option ν → Machine ν → Prop}
    (hscript : ∀ (base : Nat) (address : UInt32), m.stack.size = base + (n + 1) →
      m.frames.size < m.limits.maxCallDepth →
      m.stack[base]? = some (.closure (.script address)) →
      ends none { m.enterFrame .function base with pc := address.toNat })
    (hnative : ∀ (base id : Nat) (entry : NamedNative ν), m.stack.size = base + (n + 1) →
      m.frames.size < m.limits.maxCallDepth →
      m.stack[base]? = some (.closure (.native id)) → m.store.natives[id]? = some entry →
      ends (some entry.native) (m.enterFrame .native base))
    (hunderflow : m.stack.size < n + 1 → fails .stackUnderflow m)
    (hdepth : m.limits.maxCallDepth ≤ m.frames.size → fails .callDepthExceeded m)
    (hunknown : ∀ (base id : Nat), m.stack.size = base + (n + 1) →
      m.stack[base]? = some (.closure (.native id)) → m.store.natives[id]? = none →
      fails .unknownNative m)
    (hother : ∀ kind, fails (.notCallable kind) m) : Ends (call n) m ends fails := by
  unfold Ends call
  by_cases hsize : m.stack.size < n + 1
  · simpa only [dif_pos hsize] using hunderflow hsize
  · by_cases hframes : m.limits.maxCallDepth ≤ m.frames.size
    · simpa only [dif_neg hsize, if_pos hframes] using hdepth hframes
    · obtain ⟨base, hbase⟩ : ∃ base, m.stack.size = base + (n + 1) :=
        ⟨m.stack.size - (n + 1), by omega⟩
      have hindex : m.stack.size - (n + 1) = base := by omega
      have hlt : base < m.stack.size := by omega
      simp only [dif_neg hsize, if_neg hframes, hindex]
      cases hcallee : m.stack[base] with
      | closure c =>
        have hcallee' : m.stack[base]? = some (.closure c) := by
          rw [Array.getElem?_eq_getElem hlt, hcallee]
        cases c with
        | script address => exact hscript base address hbase (by omega) hcallee'
        | native id =>
          cases hentry : m.store.natives[id]? with
          | none => simpa only [hentry] using hunknown base id hbase hcallee' hentry
          | some entry =>
            have hends := hnative base id entry hbase (by omega) hcallee' hentry
            simpa only [hentry] using hends
      | _ => exact hother _

/-- So many values have been pushed; no call has been made and none has failed. -/
structure Piles (m m' : Machine ν) (n : Nat) : Prop where
  frames : m'.frames = m.frames
  limits : m'.limits = m.limits
  pc : m'.pc = m.pc
  fault : m'.fault = m.fault
  size : m'.stack.size = m.stack.size + n

section Pushing

variable {m' m'' : Machine ν} {n n' : Nat}

/-- Doing nothing pushes no value. -/
theorem piles_zero (m : Machine ν) : m.Piles m 0 := ⟨rfl, rfl, rfl, rfl, rfl⟩

/-- A push pushes one value. -/
theorem piles_one (m : Machine ν) (v : Value) :
    m.Piles { m with stack := m.stack.push v } 1 := ⟨rfl, rfl, rfl, rfl, Array.size_push v⟩

/-- Values are pushed one batch after the other. -/
theorem Piles.trans (h : m.Piles m' n) (h' : m'.Piles m'' n') : m.Piles m'' (n + n') where
  frames := h'.frames.trans h.frames
  limits := h'.limits.trans h.limits
  pc := h'.pc.trans h.pc
  fault := h'.fault.trans h.fault
  size := by rw [h'.size, h.size, Nat.add_assoc]

/-- Pushing values one after the other pushes them all, unless the stack is full. -/
theorem piles_forM_push (values : List Value) (m : Machine ν) : Ends (values.forM push) m
    (fun _ m' => m.Piles m' values.length) fun _ m' => ∃ n, m.Piles m' n := by
  induction values generalizing m with
  | nil => exact piles_zero m
  | cons v rest ih =>
    have hpush : Ends (push v) m (fun _ m' => m.Piles m' 1) fun _ m' => ∃ n, m.Piles m' n :=
      ends_push (fun _ => piles_one m v) fun _ => ⟨0, piles_zero m⟩
    refine hpush.bind fun _ m₁ h₁ => ?_
    refine (ih m₁).imp (fun _ m' h => ?_) fun _ m' ⟨n, h⟩ => ⟨1 + n, h₁.trans h⟩
    rw [List.length_cons, Nat.add_comm]
    exact h₁.trans h

/-- A call of a value is carried out when the value and its arguments have been pushed. -/
theorem ends_pushCall_of {callee : Value} {arguments : List Value}
    {ends : Option ν → Machine ν → Prop}
    (hcall : ∀ m', m.Piles m' (arguments.length + 1) → m.stack.size < m.limits.maxStack →
      Ends (call arguments.length) m' ends fails)
    (hfails : ∀ error m' n, m.Piles m' n → fails error m') :
    Ends (pushCall callee arguments) m ends fails := by
  have hpush : Ends (push callee) m
      (fun _ m' => m.Piles m' 1 ∧ m.stack.size < m.limits.maxStack) fails :=
    ends_push (fun hroom => ⟨piles_one m callee, hroom⟩) fun _ => hfails _ m 0 (piles_zero m)
  refine hpush.bind fun _ m₁ ⟨h₁, hroom⟩ => ?_
  have hrest : Ends (arguments.forM push) m₁
      (fun _ m₂ => m.Piles m₂ (arguments.length + 1)) fails := by
    refine (piles_forM_push arguments m₁).imp (fun _ m₂ h₂ => ?_)
      fun error m₂ ⟨n, h₂⟩ => hfails error m₂ _ (h₁.trans h₂)
    rw [Nat.add_comm]
    exact h₁.trans h₂
  exact hrest.bind fun _ m₂ h₂ => hcall m₂ h₂ hroom

end Pushing

/-- Returning drops the innermost frame and what it left on the stack, and pushes the result. -/
theorem ends_ret {v : Value} {ends : Unit → Machine ν → Prop}
    (hok : ∀ (frames : Array Frame) (f : Frame), m.frames = frames.push f → Ends (push v)
      { m with frames, stack := m.stack.shrink f.stackBase, pc := f.returnPc } ends fails)
    (herror : m.frames.size = 0 → fails .stackUnderflow m) : Ends (ret v) m ends fails := by
  unfold Ends ret
  by_cases hempty : m.frames.size = 0
  · have hframes : m.frames = #[] := Array.eq_empty_of_size_eq_zero hempty
    simpa only [hframes, Array.back?_empty] using herror hempty
  · obtain ⟨frames, f, hframes⟩ := Array.eq_push_of_size_ne_zero hempty
    have hpush := hok frames f hframes
    simpa only [Ends, hframes, Array.back?_push, Array.pop_push] using hpush

/-- The end of the script drops the frame of its body; in any other frame it is an error. -/
theorem ends_done {ends : Unit → Machine ν → Prop}
    (hok : ∀ (frames : Array Frame) (f : Frame), m.frames = frames.push f →
      f.kind = .script → ends () { m with frames, stack := m.stack.shrink f.stackBase })
    (hunexpected : ∀ (frames : Array Frame) (f : Frame), m.frames = frames.push f →
      f.kind ≠ .script → fails .unexpectedDone { m with frames })
    (herror : m.frames.size = 0 → fails .stackUnderflow m) : Ends done m ends fails := by
  unfold Ends done
  by_cases hempty : m.frames.size = 0
  · have hframes : m.frames = #[] := Array.eq_empty_of_size_eq_zero hempty
    simpa only [hframes, Array.back?_empty] using herror hempty
  · obtain ⟨frames, f, hframes⟩ := Array.eq_push_of_size_ne_zero hempty
    simp only [hframes, Array.back?_push, Array.pop_push]
    cases hkind : f.kind with
    | script => exact hok frames f hframes hkind
    | _ => exact hunexpected frames f hframes (by simp [hkind])

/-- Local symbols are those of the innermost frame. -/
theorem ends_storeLocal {index : Nat} {v : Value} {ends : Unit → Machine ν → Prop}
    (hok : ∀ (frames : Array Frame) (f : Frame), m.frames = frames.push f →
      ends () { m with frames := frames.push (f.setLocal index v) })
    (herror : m.frames.size = 0 → fails .stackUnderflow m) :
    Ends (storeLocal index v) m ends fails := by
  unfold Ends storeLocal
  by_cases hempty : m.frames.size = 0
  · have hframes : m.frames = #[] := Array.eq_empty_of_size_eq_zero hempty
    simpa [hframes] using herror hempty
  · obtain ⟨frames, f, hframes⟩ := Array.eq_push_of_size_ne_zero hempty
    have hmodify : (frames.push f).modify ((frames.push f).size - 1) (·.setLocal index v) =
        frames.push (f.setLocal index v) := by
      apply Array.ext_getElem?
      intro k
      rw [Array.getElem?_modify, Array.size_push, Nat.add_sub_cancel]
      by_cases hk : k = frames.size
      · subst hk
        simp
      · simp [Array.getElem?_push, hk, Ne.symm hk]
    have hisEmpty : (frames.push f).isEmpty = false := by simp
    simp only [hframes, hisEmpty, hmodify]
    exact hok frames f hframes

end Machine

end Swarm
