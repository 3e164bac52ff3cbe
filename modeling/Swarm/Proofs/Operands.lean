import Swarm.Proofs.Action

/-!
# Operands

The operands of an instruction are the values that it takes from the stack. Those
that the innermost frame has pushed lie above its stack base; what lies below
belongs to its callers. This file says what instructions do to the calls in
progress and to the stack, and that what lies below the innermost frame neither
matters to them nor is changed by them.
-/

namespace Swarm

/-- The number of operands that an instruction takes. -/
def Instruction.operands : Instruction → Nat
  | .dup | .pop | .globalStore _ | .localStore _ | .ret1 | .jumpIfZero _ | .jumpIfNotZero _
  | .neg | .not => 1
  | .tableGet | .binary _ => 2
  | .tablePut => 3
  | .call argumentCount => argumentCount.toNat + 1
  | _ => 0

/-- Whether an instruction measures its operands against the whole stack. -/
def Instruction.measuresWhole : Instruction → Bool
  | .dup | .call _ => true
  | _ => false

/-- A frame but for its local symbols. -/
def Frame.outline (f : Frame) : Frame := { f with locals := #[] }

/-- The values with the first ones replaced. -/
def overlay (lower values : Array Value) : Array Value :=
  lower ++ values.extract lower.size values.size

section Overlay

variable {lower values : Array Value}

/-- An overlay has as many values as there were. -/
theorem size_overlay (h : lower.size ≤ values.size) :
    (overlay lower values).size = values.size := by
  simp only [overlay, Array.size_append, Array.size_extract]
  omega

/-- Above the overlaid part the values are the same. -/
theorem getElem?_overlay {k : Nat} (h : lower.size ≤ k) :
    (overlay lower values)[k]? = values[k]? := by
  unfold overlay
  rw [Array.getElem?_append_right h, Array.getElem?_extract]
  grind

/-- A value pushed on an overlay could have been pushed before. -/
theorem overlay_push (h : lower.size ≤ values.size) (v : Value) :
    overlay lower (values.push v) = (overlay lower values).push v := by
  unfold overlay
  grind

/-- An overlay that is cut above the overlaid part could have been cut before. -/
theorem overlay_shrink {base : Nat} (h : lower.size ≤ base) :
    overlay lower (values.shrink base) = (overlay lower values).shrink base := by
  unfold overlay
  rw [Array.shrink_eq_take, Array.shrink_eq_take, Array.take_eq_extract, Array.take_eq_extract,
    Array.extract_append, Array.extract_extract, Array.extract_extract,
    Array.extract_eq_self_of_le h]
  grind

/-- What stands above the overlaid part can be read through the overlay. -/
theorem extract_overlay {base : Nat} (h : lower.size ≤ base) (hsize : lower.size ≤ values.size) :
    (overlay lower values).extract base values.size = values.extract base values.size := by
  apply Array.ext_getElem?
  intro k
  rw [Array.getElem?_extract, Array.getElem?_extract, size_overlay hsize,
    getElem?_overlay (by omega)]

end Overlay

/-- The same end with another machine. -/
def Action.mapEnd {ν α : Type} (f : Machine ν → Machine ν) :
    EStateM.Result RuntimeError (Machine ν) α → EStateM.Result RuntimeError (Machine ν) α
  | .ok a m => .ok a (f m)
  | .error e m => .error e (f m)

namespace Machine

open Swarm.Action

variable {ν α β : Type} {m m' m₁ : Machine ν} {success : Prop} {lower : Array Value}

/-- The calls in progress, without their local symbols. -/
def calls (m : Machine ν) : Array Frame := m.frames.map Frame.outline

/-- The number of values that the innermost frame has pushed. -/
def own (m : Machine ν) : Nat := m.stack.size - m.stackFloor

/-- The machine with other values at the bottom of its stack. -/
def withBelow (lower : Array Value) (m : Machine ν) : Machine ν :=
  { m with stack := overlay lower m.stack }

/-- An instruction that measures its operands against the whole stack goes below the operands of
the innermost frame. -/
def Overreaches (m : Machine ν) (i : Instruction) : Prop :=
  i.measuresWhole = true ∧ m.own < i.operands ∧ i.operands ≤ m.stack.size

instance (m : Machine ν) (i : Instruction) : Decidable (m.Overreaches i) :=
  inferInstanceAs (Decidable (_ ∧ _ ∧ _))

/-- Other values at the bottom leave the bounds. -/
@[simp] theorem limits_withBelow (lower : Array Value) (m : Machine ν) :
    (m.withBelow lower).limits = m.limits := rfl

/-- Other values at the bottom leave the store. -/
@[simp] theorem store_withBelow (lower : Array Value) (m : Machine ν) :
    (m.withBelow lower).store = m.store := rfl

/-- Other values at the bottom leave the frames. -/
@[simp] theorem frames_withBelow (lower : Array Value) (m : Machine ν) :
    (m.withBelow lower).frames = m.frames := rfl

/-- Other values at the bottom leave the floor. -/
@[simp] theorem stackFloor_withBelow (lower : Array Value) (m : Machine ν) :
    (m.withBelow lower).stackFloor = m.stackFloor := rfl

/-- Other values at the bottom leave the size of the stack. -/
theorem size_withBelow (h : lower.size ≤ m.stack.size) :
    (m.withBelow lower).stack.size = m.stack.size :=
  size_overlay h

/-- The floor is the stack base of the innermost call, or zero. -/
theorem stackFloor_eq (m : Machine ν) :
    m.stackFloor = (m.calls.back?.map Frame.stackBase).getD 0 := by
  unfold stackFloor calls
  rw [Array.back?_map]
  cases m.frames.back? <;> rfl

/-- The floor is the stack base of the innermost call. -/
theorem stackFloor_of_calls {outer : Array Frame} {f : Frame} (h : m.calls = outer.push f) :
    m.stackFloor = f.stackBase := by
  rw [stackFloor_eq, h, Array.back?_push]
  rfl

/-- The same calls have the same floor. -/
theorem stackFloor_congr (h : m'.calls = m.calls) : m'.stackFloor = m.stackFloor := by
  rw [stackFloor_eq, stackFloor_eq, h]

/-- The innermost frame is the innermost call. -/
theorem calls_of_frames {frames : Array Frame} {f : Frame} (h : m.frames = frames.push f) :
    m.calls = (frames.map Frame.outline).push f.outline := by
  unfold calls
  rw [h, Array.map_push]

/-- The floor is the stack base of the innermost frame. -/
theorem stackFloor_of_frames {frames : Array Frame} {f : Frame} (h : m.frames = frames.push f) :
    m.stackFloor = f.stackBase := by
  unfold stackFloor
  rw [h, Array.back?_push]

/-- The lowest values of both stacks are the same. -/
def Shares (k : Nat) (m m' : Machine ν) : Prop := ∀ i < k, m'.stack[i]? = m.stack[i]?

/-- A stack that stays the same shares all values. -/
theorem shares_of_eq {k : Nat} (h : m'.stack = m.stack) : m.Shares k m' := by
  intro i _
  rw [h]

/-- What is shared twice is shared. -/
theorem Shares.trans {k : Nat} (h : m.Shares k m₁) (h' : m₁.Shares k m') : m.Shares k m' := by
  intro i hi
  rw [h' i hi, h i hi]

/-- Who shares values shares the lower ones. -/
theorem Shares.mono {k n : Nat} (h : m.Shares n m') (hle : k ≤ n) : m.Shares k m' := by
  intro i hi
  apply h
  omega

/-- Pushing a value shares the values below it. -/
theorem shares_push {k : Nat} {rest : Array Value} {v : Value} (hm : m.stack = rest)
    (hm' : m'.stack = rest.push v) (hk : k ≤ rest.size) : m.Shares k m' := by
  intro i hi
  rw [hm, hm', Array.getElem?_push, if_neg (by omega)]

/-- Popping a value shares the values below it. -/
theorem shares_pop {k : Nat} {rest : Array Value} {v : Value} (hm : m.stack = rest.push v)
    (hm' : m'.stack = rest) (hk : k ≤ rest.size) : m.Shares k m' := by
  intro i hi
  rw [hm, hm', Array.getElem?_push, if_neg (by omega)]

/-- Cutting the stack shares the values below the cut. -/
theorem shares_shrink {k : Nat} (h : m'.stack = m.stack.shrink k) : m.Shares k m' := by
  intro i hi
  rw [h, Array.shrink_eq_take, Array.getElem?_extract]
  grind

/-- The innermost frame has worked on its own part of the stack. -/
structure Works (m m' : Machine ν) : Prop where
  calls : m'.calls = m.calls
  shares : m.Shares m.stackFloor m'
  fault : m'.fault = m.fault

/-- What may become of the calls in progress and of the stack: the innermost frame works on its
own part of the stack, a new frame is entered above the floor, or the innermost frame is left.
A frame that is left with success has returned a result, or was that of a body. -/
inductive Affects (m : Machine ν) (success : Prop) (m' : Machine ν) : Prop where
  | work (hcalls : m'.calls = m.calls) (hshares : m.Shares m.stackFloor m')
      (hsize : m.stackFloor ≤ m'.stack.size)
  | enter (f : Frame) (hcalls : m'.calls = m.calls.push f) (hbase : m.stackFloor ≤ f.stackBase)
      (hshares : m.Shares m.stackFloor m') (hsize : f.stackBase ≤ m'.stack.size)
  | ret (f : Frame) (hcalls : m.calls = m'.calls.push f) (hshares : m.Shares f.stackBase m')
      (hsize : m'.stack.size = f.stackBase + 1) (hpc : m'.pc = f.returnPc)
  | leave (f : Frame) (hcalls : m.calls = m'.calls.push f) (hshares : m.Shares f.stackBase m')
      (hsize : f.stackBase ≤ m'.stack.size) (hkind : success → f.kind = .script)

/-- Doing nothing is work of the innermost frame. -/
theorem affects_refl (hfloor : m.stackFloor ≤ m.stack.size) : m.Affects success m :=
  .work rfl (shares_of_eq rfl) hfloor

/-- Work of the innermost frame may come before anything else. -/
theorem Affects.after (h : m₁.Affects success m') (hm : m.Works m₁) : m.Affects success m' := by
  have hfloor := stackFloor_congr hm.calls
  have hshares := hm.shares
  cases h with
  | work hcalls hshares' hsize =>
    rw [hfloor] at hshares' hsize
    exact .work (hcalls.trans hm.calls) (hshares.trans hshares') hsize
  | enter f hcalls hbase hshares' hsize =>
    rw [hm.calls] at hcalls
    rw [hfloor] at hshares' hbase
    exact .enter f hcalls hbase (hshares.trans hshares') hsize
  | ret f hcalls hshares' hsize hpc =>
    rw [hm.calls] at hcalls
    rw [stackFloor_of_calls hcalls] at hshares
    exact .ret f hcalls (hshares.trans hshares') hsize hpc
  | leave f hcalls hshares' hsize hkind =>
    rw [hm.calls] at hcalls
    rw [stackFloor_of_calls hcalls] at hshares
    exact .leave f hcalls (hshares.trans hshares') hsize hkind

/-- Only the condition for success may grow weaker. -/
theorem Affects.imp {success' : Prop} (h : m.Affects success m') (himp : success' → success) :
    m.Affects success' m' := by
  cases h with
  | work hcalls hshares hsize => exact .work hcalls hshares hsize
  | enter f hcalls hbase hshares hsize => exact .enter f hcalls hbase hshares hsize
  | ret f hcalls hshares hsize hpc => exact .ret f hcalls hshares hsize hpc
  | leave f hcalls hshares hsize hkind =>
    exact .leave f hcalls hshares hsize fun hsuccess => hkind (himp hsuccess)

/-- What lies below the floor stays as it is. -/
theorem Affects.shares (h : m.Affects success m') : m.Shares m.stackFloor m' := by
  cases h with
  | work _ hshares _ | enter _ _ _ hshares _ => exact hshares
  | ret f hcalls hshares _ _ | leave f hcalls hshares _ _ =>
    rw [stackFloor_of_calls hcalls]
    exact hshares

/-- A call that is still in progress is the same call. -/
theorem Affects.getElem?_calls (h : m.Affects success m') {k : Nat} (hk : k < m.calls.size)
    (hk' : k < m'.calls.size) : m'.calls[k]? = m.calls[k]? := by
  cases h with
  | work hcalls _ _ => rw [hcalls]
  | enter f hcalls _ _ _ => rw [hcalls, Array.getElem?_push_lt hk, Array.getElem?_eq_getElem hk]
  | ret f hcalls _ _ _ | leave f hcalls _ _ _ =>
    rw [hcalls, Array.getElem?_push_lt hk', Array.getElem?_eq_getElem hk']

/-- Stack bases ascend from call to call, up to the top of the stack. -/
structure Ordered (m : Machine ν) : Prop where
  ascend : (m.calls.toList.map Frame.stackBase).Pairwise (· ≤ ·)
  fit : ∀ f ∈ m.calls, f.stackBase ≤ m.stack.size

/-- Without calls there is nothing to order. -/
theorem ordered_of_idle (h : m.frames = #[]) : m.Ordered := by
  have hcalls : m.calls = #[] := by
    unfold calls
    rw [h, Array.map_empty]
  constructor <;> rw [hcalls]
  · exact List.Pairwise.nil
  · exact fun f hf => absurd hf (Array.not_mem_empty f)

/-- The stack bases ascend with another call if its base is above the others. -/
theorem pairwise_push {calls : Array Frame} {f : Frame} :
    ((calls.push f).toList.map Frame.stackBase).Pairwise (· ≤ ·) ↔
      (calls.toList.map Frame.stackBase).Pairwise (· ≤ ·) ∧
        ∀ g ∈ calls, g.stackBase ≤ f.stackBase := by
  rw [Array.toList_push, List.map_append, List.pairwise_append]
  simp

/-- No call has its stack base above the floor. -/
theorem Ordered.le_stackFloor (hm : m.Ordered) {f : Frame} (hf : f ∈ m.calls) :
    f.stackBase ≤ m.stackFloor := by
  have hsize : m.calls.size ≠ 0 := by
    intro hempty
    rw [Array.eq_empty_of_size_eq_zero hempty] at hf
    exact Array.not_mem_empty f hf
  obtain ⟨outer, g, hcalls⟩ := Array.eq_push_of_size_ne_zero hsize
  have hascend := hm.ascend
  rw [hcalls, pairwise_push] at hascend
  rw [stackFloor_of_calls hcalls]
  rw [hcalls] at hf
  rcases Array.mem_push.mp hf with hf | rfl
  · exact hascend.2 f hf
  · exact Nat.le_refl _

/-- The floor of an ordered machine is within its stack. -/
theorem Ordered.stackFloor_le (hm : m.Ordered) : m.stackFloor ≤ m.stack.size := by
  rw [stackFloor_eq]
  cases hback : m.calls.back? with
  | none => exact Nat.zero_le _
  | some f => exact hm.fit f (Array.mem_of_back? hback)

/-- Leaving a call leaves the rest in order. -/
theorem Ordered.of_push {f : Frame} (hm : m.Ordered) (hcalls : m.calls = m'.calls.push f)
    (hsize : f.stackBase ≤ m'.stack.size) : m'.Ordered := by
  have hascend := hm.ascend
  rw [hcalls, pairwise_push] at hascend
  exact ⟨hascend.1, fun g hg => Nat.le_trans (hascend.2 g hg) hsize⟩

/-- Whatever becomes of an ordered machine, it stays ordered. -/
theorem Affects.ordered (h : m.Affects success m') (hm : m.Ordered) : m'.Ordered := by
  cases h with
  | work hcalls _ hsize =>
    constructor
    · rw [hcalls]
      exact hm.ascend
    · intro f hf
      rw [hcalls] at hf
      exact Nat.le_trans (hm.le_stackFloor hf) hsize
  | enter f hcalls hbase _ hsize =>
    have hle (g : Frame) (hg : g ∈ m.calls) : g.stackBase ≤ f.stackBase :=
      Nat.le_trans (hm.le_stackFloor hg) hbase
    constructor
    · rw [hcalls, pairwise_push]
      exact ⟨hm.ascend, hle⟩
    · intro g hg
      rw [hcalls] at hg
      rcases Array.mem_push.mp hg with hg | rfl
      · exact Nat.le_trans (hle g hg) hsize
      · exact hsize
  | ret f hcalls _ hsize _ =>
    exact hm.of_push hcalls (by omega)
  | leave f hcalls _ hsize _ => exact hm.of_push hcalls hsize

/-- An action respects the callers of the innermost frame: it does the same whatever values lie
below the floor, it affects calls and stack in order only, and it fails for want of operands. -/
structure Respects (m : Machine ν) (act : Action ν α) (operands : Nat) : Prop where
  blind : ∀ lower : Array Value, lower.size ≤ m.stackFloor →
    act (m.withBelow lower) = mapEnd (withBelow lower) (act m)
  affects : Ends act m (fun _ m' => m.Affects True m') (fun _ m' => m.Affects False m')
  underflow : m.own < operands →
    Ends act m (fun _ _ => False) (fun e m' => e = .stackUnderflow ∧ m'.fault = m.fault)

end Machine

end Swarm
