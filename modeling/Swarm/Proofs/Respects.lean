import Swarm.Machine.Execution
import Swarm.Proofs.Operands

/-!
# Instructions respect callers

An instruction that does not overreach respects the callers of the innermost
frame. The only instructions that can overreach are `Dup` and `Call`: all others
take their operands one by one, and each of these steps stops at the floor.
-/

namespace Swarm

namespace Machine

open Swarm.Action

variable {ν α β : Type} {m : Machine ν} {operands : Nat}

/-- An action that needs no operands. -/
theorem respects_of_blind {act : Action ν α}
    (hblind : ∀ lower : Array Value, lower.size ≤ m.stackFloor →
      act (m.withBelow lower) = mapEnd (withBelow lower) (act m))
    (haffects : Ends act m (fun _ m' => m.Affects True m') (fun _ m' => m.Affects False m')) :
    m.Respects act 0 :=
  ⟨hblind, haffects, fun h => absurd h (Nat.not_lt_zero _)⟩

/-- Doing nothing respects the callers. -/
theorem respects_pure (hfloor : m.stackFloor ≤ m.stack.size) (a : α) :
    m.Respects (pure a : Action ν α) 0 :=
  respects_of_blind (fun _ _ => rfl) (affects_refl hfloor)

/-- Failing changes nothing. -/
theorem respects_throw (hfloor : m.stackFloor ≤ m.stack.size) (e : RuntimeError) :
    m.Respects (throw e : Action ν α) 0 :=
  respects_of_blind (fun _ _ => rfl) (affects_refl hfloor)

/-- A first part that only works on what belongs to the innermost frame, and the rest. The rest
lacks operands if the whole does. -/
theorem respects_bind {act : Action ν α} {next : α → Action ν β} {n : Nat}
    (hblind : ∀ lower : Array Value, lower.size ≤ m.stackFloor →
      act (m.withBelow lower) = mapEnd (withBelow lower) (act m))
    (hends : Ends act m
      (fun a m' => m.Works m' ∧ (m.own < operands → m'.own < n) ∧ m'.Respects (next a) n)
      fun e m' => m.Affects False m' ∧
        (m.own < operands → e = .stackUnderflow ∧ m'.fault = m.fault)) :
    m.Respects (act >>= next) operands := by
  constructor
  · intro lower hlower
    have hact := hblind lower hlower
    unfold Ends at hends
    cases h : act m with
    | ok a m' =>
      rw [h] at hact hends
      obtain ⟨hworks, _, hrest⟩ := hends
      rw [bind_ok h, bind_ok hact]
      exact hrest.blind lower (by rwa [stackFloor_congr hworks.calls])
    | error e m' =>
      rw [h] at hact
      rw [bind_error h, bind_error hact]
      rfl
  · refine (hends.imp (fun _ _ h => h) fun _ _ h => h.1).bind fun a m' ⟨hworks, _, hrest⟩ => ?_
    exact hrest.affects.imp (fun _ _ haffects => haffects.after hworks)
      fun _ _ haffects => haffects.after hworks
  · intro hown
    refine (hends.imp (fun _ _ h => h) fun _ _ h => h.2 hown).bind
      fun a m' ⟨hworks, hlack, hrest⟩ => ?_
    have hunderflow := hrest.underflow (hlack hown)
    rw [hworks.fault] at hunderflow
    exact hunderflow

/-- Nothing is done after the last part of an instruction. -/
theorem Respects.bind_pure {act : Action ν α} (h : m.Respects act operands) (b : β) :
    m.Respects (do let _ ← act; return b) operands where
  blind lower hlower := by
    have hblind := h.blind lower hlower
    cases hact : act m with
    | ok a m' =>
      rw [hact] at hblind
      rw [bind_ok hact, bind_ok hblind]
      rfl
    | error e m' =>
      rw [hact] at hblind
      rw [bind_error hact, bind_error hblind]
      rfl
  affects := h.affects.bind fun _ _ haffects => haffects
  underflow hown := (h.underflow hown).bind fun _ _ hfalse => hfalse.elim

/-- The rest of an instruction depends on a calculation that may fail. -/
theorem respects_require_bind (hfloor : m.stackFloor ≤ m.stack.size)
    {result : Except RuntimeError α} {next : α → Action ν β}
    (hnext : ∀ a, m.Respects (next a) 0) : m.Respects (require result >>= next) 0 := by
  cases result with
  | ok a => exact hnext a
  | error e => exact respects_throw hfloor e

/-- The rest of an instruction depends on the machine, but not on its stack. -/
theorem respects_get_bind {next : Machine ν → Action ν β}
    (hnext : ∀ lower, next (m.withBelow lower) = next m) (h : m.Respects (next m) operands) :
    m.Respects (get >>= next) operands where
  blind lower hlower := by
    change next (m.withBelow lower) (m.withBelow lower) = mapEnd _ (next m m)
    rw [hnext]
    exact h.blind lower hlower
  affects := h.affects
  underflow := h.underflow

/-- A change of the machine that leaves stack, frames and fault as they are. -/
theorem respects_modifyGet_bind {f : Machine ν → α × Machine ν} {next : α → Action ν β}
    (hstack : (f m).2.stack = m.stack) (hframes : (f m).2.frames = m.frames)
    (hfault : (f m).2.fault = m.fault)
    (hf : ∀ lower, f (m.withBelow lower) = ((f m).1, (f m).2.withBelow lower))
    (h : (f m).2.Respects (next (f m).1) operands) :
    m.Respects (modifyGet f >>= next) operands := by
  have hcalls : (f m).2.calls = m.calls := congrArg (Array.map Frame.outline) hframes
  have hown : (f m).2.own = m.own := by
    unfold own
    rw [stackFloor_congr hcalls, hstack]
  refine respects_bind (fun lower _ => ?_) ⟨⟨hcalls, shares_of_eq hstack, hfault⟩, ?_, h⟩
  · change EStateM.Result.ok (f (m.withBelow lower)).1 (f (m.withBelow lower)).2 = _
    rw [hf]
    rfl
  · rw [hown]
    exact id

/-- A change that leaves calls and stack may come first. -/
theorem respects_modify_bind {f : Machine ν → Machine ν} {next : PUnit → Action ν β}
    (hstack : (f m).stack = m.stack) (hframes : (f m).frames = m.frames)
    (hfault : (f m).fault = m.fault) (hf : ∀ lower, f (m.withBelow lower) = (f m).withBelow lower)
    (h : (f m).Respects (next ⟨⟩) operands) : m.Respects (modify f >>= next) operands :=
  respects_modifyGet_bind hstack hframes hfault (fun lower => by rw [hf]) h

/-- What lies below does not matter to pushing. -/
theorem push_withBelow {lower : Array Value} (h : lower.size ≤ m.stack.size) (v : Value) :
    push v (m.withBelow lower) = mapEnd (withBelow lower) (push v m) := by
  unfold push
  rw [size_withBelow h, limits_withBelow]
  by_cases hfull : m.limits.maxStack ≤ m.stack.size
  · rw [if_pos hfull, if_pos hfull]
    rfl
  · rw [if_neg hfull, if_neg hfull]
    simp only [mapEnd, withBelow, overlay_push h]

/-- Pushing a value respects the callers. -/
theorem respects_push (hfloor : m.stackFloor ≤ m.stack.size) (v : Value) :
    m.Respects (push v) 0 := by
  refine respects_of_blind (fun lower hlower => push_withBelow (by omega) v)
    (ends_push (fun _ => ?_) fun _ => affects_refl hfloor)
  refine .work rfl (shares_push rfl rfl hfloor) ?_
  change m.stackFloor ≤ (m.stack.push v).size
  rw [Array.size_push]
  omega

/-- A pushed value is an operand for the rest. -/
theorem respects_push_bind (hfloor : m.stackFloor ≤ m.stack.size) (v : Value)
    {next : Unit → Action ν β}
    (hnext : ∀ m' : Machine ν, m'.stackFloor ≤ m'.stack.size → m'.own = m.own + 1 →
      m'.Respects (next ()) 0) :
    m.Respects (push v >>= next) 0 := by
  have hsize : (m.stack.push v).size = m.stack.size + 1 := Array.size_push v
  have hnone {k : Nat} {P : Prop} (h : k < 0) : P := absurd h (Nat.not_lt_zero k)
  refine respects_bind (n := 0) (fun lower hlower => push_withBelow (by omega) v)
    (ends_push (fun _ => ⟨⟨rfl, shares_push rfl rfl hfloor, rfl⟩, hnone, hnext _ ?_ ?_⟩)
      fun _ => ⟨affects_refl hfloor, hnone⟩)
  · change m.stackFloor ≤ (m.stack.push v).size
    omega
  · change (m.stack.push v).size - m.stackFloor = m.stack.size - m.stackFloor + 1
    omega

/-- What lies below the floor does not matter to popping. -/
theorem pop_withBelow {lower : Array Value} (hlower : lower.size ≤ m.stackFloor)
    (hfloor : m.stackFloor ≤ m.stack.size) :
    pop (m.withBelow lower) = mapEnd (withBelow lower) (pop m) := by
  unfold pop
  rw [size_withBelow (by omega), stackFloor_withBelow]
  by_cases hempty : m.stack.size ≤ m.stackFloor
  · rw [if_pos hempty, if_pos hempty]
    rfl
  · obtain ⟨rest, v, hstack⟩ := Array.eq_push_of_size_ne_zero (by omega : m.stack.size ≠ 0)
    have hsize : m.stack.size = rest.size + 1 := by rw [hstack, Array.size_push]
    have hoverlay := overlay_push (by omega : lower.size ≤ rest.size) v
    rw [if_neg hempty, if_neg hempty]
    simp only [withBelow, hstack, hoverlay, Array.back?_push, Array.pop_push, mapEnd]

/-- The operand of an instruction is popped; the rest of the instruction follows. -/
theorem respects_pop_bind (hfloor : m.stackFloor ≤ m.stack.size) {next : Value → Action ν β}
    (hnext : ∀ (m' : Machine ν) (v : Value), m'.stackFloor ≤ m'.stack.size →
      m'.Respects (next v) operands) :
    m.Respects (pop >>= next) (operands + 1) := by
  refine respects_bind (n := operands) (fun lower hlower => pop_withBelow hlower hfloor)
    (ends_pop (fun rest v hstack hrest => ?_)
      fun _ => ⟨affects_refl hfloor, fun _ => ⟨rfl, rfl⟩⟩)
  refine ⟨⟨rfl, shares_pop hstack rfl hrest, rfl⟩, fun hown => ?_, hnext _ v hrest⟩
  have hsize : m.stack.size = rest.size + 1 := by rw [hstack, Array.size_push]
  unfold own at hown
  change rest.size - m.stackFloor < operands
  omega

/-- Popping a value respects the callers and takes one operand. -/
theorem respects_pop (hfloor : m.stackFloor ≤ m.stack.size) :
    m.Respects (pop : Action ν Value) 1 := by
  have h : m.Respects ((pop : Action ν Value) >>= pure) 1 :=
    respects_pop_bind hfloor fun m' v h' => respects_pure h' v
  rwa [bind_pure] at h

/-- The topmost value of the innermost frame is the same whatever lies below the floor. -/
theorem top_withBelow {lower : Array Value} (hlower : lower.size ≤ m.stackFloor)
    (hfloor : m.stackFloor ≤ m.stack.size) (hfits : m.own = 0 → m.stack.size = 0) :
    top (m.withBelow lower) = mapEnd (withBelow lower) (top m) := by
  have hback : (m.withBelow lower).stack.back? = m.stack.back? := by
    rw [Array.back?_eq_getElem?, Array.back?_eq_getElem?, size_withBelow (by omega)]
    apply getElem?_overlay
    unfold own at hfits
    omega
  unfold top
  rw [hback]
  split <;> rfl

/-- The topmost value is looked at, and there is none unless the innermost frame has pushed one. -/
theorem respects_top_bind (hfloor : m.stackFloor ≤ m.stack.size)
    (hfits : m.own = 0 → m.stack.size = 0) {next : Value → Action ν β}
    (hnext : ∀ v, m.Respects (next v) 0) : m.Respects (top >>= next) 1 := by
  refine respects_bind (fun lower hlower => top_withBelow hlower hfloor hfits)
    (ends_top (fun rest v hstack => ⟨⟨rfl, shares_of_eq rfl, rfl⟩, fun hown => ?_, hnext v⟩)
      fun _ => ⟨affects_refl hfloor, fun _ => ⟨rfl, rfl⟩⟩)
  have hsize := hfits (by omega)
  rw [hstack, Array.size_push] at hsize
  omega

/-- What is left of the stack when the innermost frame is dropped. -/
theorem shrink_withBelow {lower : Array Value} {f : Frame} (hback : m.frames.back? = some f)
    (hlower : lower.size ≤ m.stackFloor) :
    (m.withBelow lower).stack.shrink f.stackBase = overlay lower (m.stack.shrink f.stackBase) := by
  have hbase : m.stackFloor = f.stackBase := by
    unfold stackFloor
    rw [hback]
  rw [hbase] at hlower
  exact (overlay_shrink hlower).symm

/-- Returning from the innermost frame. -/
theorem respects_ret (hfloor : m.stackFloor ≤ m.stack.size) (v : Value) :
    m.Respects (ret v) 0 := by
  refine respects_of_blind ?_ (ends_ret ?_ fun _ => affects_refl hfloor)
  · intro lower hlower
    unfold ret
    rw [frames_withBelow]
    cases hback : m.frames.back? with
    | none => rfl
    | some f =>
      have hbase : m.stackFloor = f.stackBase := by
        unfold stackFloor
        rw [hback]
      have hsize : lower.size ≤ (m.stack.shrink f.stackBase).size := by
        rw [Array.size_shrink]
        omega
      have hpush := push_withBelow (m := { m with
        frames := m.frames.pop, stack := m.stack.shrink f.stackBase, pc := f.returnPc }) hsize v
      dsimp only
      rw [shrink_withBelow hback hlower]
      exact hpush
  · intro frames f hframes
    have hbase := stackFloor_of_frames hframes
    have hcalls := calls_of_frames hframes
    have hsize : (m.stack.shrink f.stackBase).size = f.stackBase := by
      rw [Array.size_shrink]
      omega
    have hle : f.stackBase ≤ (m.stack.shrink f.stackBase).size := Nat.le_of_eq hsize.symm
    have hshrink : m.Shares f.stackBase { m with
        frames, stack := m.stack.shrink f.stackBase, pc := f.returnPc } := shares_shrink rfl
    apply ends_push
    · intro _
      refine .ret f.outline hcalls (hshrink.trans (shares_push rfl rfl hle)) ?_ rfl
      change ((m.stack.shrink f.stackBase).push v).size = f.stackBase + 1
      rw [Array.size_push, hsize]
    · intro _
      exact .leave f.outline hcalls hshrink hle nofun

/-- The end of the body of the script. -/
theorem respects_done (hfloor : m.stackFloor ≤ m.stack.size) : m.Respects done 0 := by
  refine respects_of_blind ?_ (ends_done ?_ ?_ fun _ => affects_refl hfloor)
  · intro lower hlower
    unfold done
    rw [frames_withBelow]
    cases hback : m.frames.back? with
    | none => rfl
    | some f =>
      cases hkind : f.kind with
      | script =>
        simp only [hkind, shrink_withBelow hback hlower]
        rfl
      | _ =>
        simp only [hkind]
        rfl
  · intro frames f hframes hkind
    have hbase := stackFloor_of_frames hframes
    refine .leave f.outline (calls_of_frames hframes) (shares_shrink rfl) ?_ fun _ => hkind
    change f.stackBase ≤ (m.stack.shrink f.stackBase).size
    rw [Array.size_shrink]
    omega
  · intro frames f hframes _
    have hbase := stackFloor_of_frames hframes
    exact .leave f.outline (calls_of_frames hframes) (shares_of_eq rfl) (hbase ▸ hfloor) nofun

/-- Storing a local symbol changes the innermost frame alone. -/
theorem respects_storeLocal (hfloor : m.stackFloor ≤ m.stack.size) (index : Nat) (v : Value) :
    m.Respects (storeLocal index v) 0 := by
  refine respects_of_blind ?_ (ends_storeLocal ?_ fun _ => affects_refl hfloor)
  · intro lower hlower
    unfold storeLocal
    rw [frames_withBelow]
    split <;> rfl
  · intro frames f hframes
    refine .work ?_ (shares_of_eq rfl) hfloor
    rw [calls_of_frames hframes]
    exact Array.map_push

/-- What becomes of a call of the value at the base. -/
def callee (m : Machine ν) (base : Nat) :
    Value → EStateM.Result RuntimeError (Machine ν) (Option ν)
  | .closure (.script address) =>
    .ok none { m.enterFrame .function base with pc := address.toNat }
  | .closure (.native id) =>
    match m.store.natives[id]? with
    | none => .error .unknownNative m
    | some entry => .ok (some entry.native) (m.enterFrame .native base)
  | other => .error (.notCallable other.kind) m

/-- A call with enough operands calls what lies below its arguments. -/
theorem call_eq {n base : Nat} {v : Value} (hsize : m.stack.size = base + (n + 1))
    (hv : m.stack[base]? = some v) :
    call n m = if m.limits.maxCallDepth ≤ m.frames.size then .error .callDepthExceeded m
      else m.callee base v := by
  have hindex : m.stack.size - (n + 1) = base := by omega
  obtain ⟨hlt, hget⟩ := Array.getElem?_eq_some_iff.mp hv
  unfold call
  rw [dif_neg (by omega)]
  simp only [hindex, hget]
  cases v with
  | closure c => cases c <;> rfl
  | _ => rfl

/-- The frame that is entered does not depend on what lies below its base. -/
theorem enterFrame_withBelow {lower : Array Value} {base : Nat} (hbase : lower.size ≤ base)
    (hsize : base ≤ m.stack.size) (kind : FrameKind) :
    (m.withBelow lower).enterFrame kind base = (m.enterFrame kind base).withBelow lower := by
  have hlocals : (overlay lower m.stack).extract base (overlay lower m.stack).size =
      m.stack.extract base m.stack.size := by
    rw [size_overlay (by omega), extract_overlay hbase (by omega)]
  have hshrink : overlay lower (m.stack.shrink base) = (overlay lower m.stack).shrink base :=
    overlay_shrink hbase
  simp only [enterFrame, withBelow, hlocals, hshrink]

/-- What is called is the same whatever values lie at the bottom. -/
theorem callee_withBelow {lower : Array Value} {base : Nat} (hbase : lower.size ≤ base)
    (hsize : base ≤ m.stack.size) (v : Value) :
    (m.withBelow lower).callee base v = mapEnd (withBelow lower) (m.callee base v) := by
  cases v with
  | closure c =>
    cases c with
    | script address =>
      simp only [callee, enterFrame_withBelow hbase hsize]
      rfl
    | native id =>
      simp only [callee, enterFrame_withBelow hbase hsize, store_withBelow]
      split <;> rfl
  | _ => rfl

/-- A call that takes operands of the innermost frame only. -/
theorem respects_call (hfloor : m.stackFloor ≤ m.stack.size) {n : Nat}
    (hfits : m.own < n + 1 → m.stack.size < n + 1) : m.Respects (call n) (n + 1) := by
  have hbase {base : Nat} (h : m.stack.size = base + (n + 1)) : m.stackFloor ≤ base := by
    unfold own at hfits
    omega
  have henter {base : Nat} (h : m.stack.size = base + (n + 1)) (kind : FrameKind) (pc : Nat) :
      m.Affects True { m.enterFrame kind base with pc } := by
    refine .enter (Frame.outline _) Array.map_push (hbase h) ?_ ?_
    · exact Shares.mono (shares_shrink rfl) (hbase h)
    · change base ≤ (m.stack.shrink base).size
      rw [Array.size_shrink]
      omega
  have hunderflow (m : Machine ν) (hsize : m.stack.size < n + 1) :
      call n m = .error .stackUnderflow m := by
    unfold call
    rw [dif_pos hsize]
  constructor
  · intro lower hlower
    have hlower' : lower.size ≤ m.stack.size := by omega
    by_cases hsize : m.stack.size < n + 1
    · have hsize' : (m.withBelow lower).stack.size < n + 1 := by rwa [size_withBelow hlower']
      rw [hunderflow m hsize, hunderflow _ hsize']
      rfl
    · obtain ⟨base, h⟩ : ∃ base, m.stack.size = base + (n + 1) :=
        ⟨m.stack.size - (n + 1), by omega⟩
      have hle : lower.size ≤ base := Nat.le_trans hlower (hbase h)
      have hv : m.stack[base]? = some m.stack[base] := Array.getElem?_eq_getElem (by omega)
      rw [call_eq h hv,
        call_eq ((size_withBelow hlower').trans h) ((getElem?_overlay hle).trans hv),
        limits_withBelow, frames_withBelow, callee_withBelow hle (by omega)]
      split <;> rfl
  · exact ends_call (fun base address h _ _ => henter h _ _)
      (fun base id entry h _ _ _ => henter h _ _) (fun _ => affects_refl hfloor)
      (fun _ => affects_refl hfloor) (fun _ _ _ _ _ => affects_refl hfloor)
      fun _ => affects_refl hfloor
  · intro hown
    unfold Ends
    rw [hunderflow m (hfits hown)]
    exact ⟨rfl, rfl⟩

/-- Pushing a value and going on to the next instruction. -/
theorem respects_push_next (hfloor : m.stackFloor ≤ m.stack.size) (v : Value) :
    m.Respects (do push v; return (none : Option ν)) 0 :=
  (respects_push hfloor v).bind_pure none

/-- Continuing at an address. -/
theorem respects_jump (hfloor : m.stackFloor ≤ m.stack.size) (address : UInt32) :
    m.Respects (do jump address; return (none : Option ν)) 0 := by
  refine respects_modify_bind rfl rfl rfl ?_ (respects_pure ?_ none)
  · exact fun _ => rfl
  · exact hfloor

/-- Every instruction that does not overreach respects the callers. -/
theorem respects_execute (hfloor : m.stackFloor ≤ m.stack.size) {i : Instruction}
    (h : ¬m.Overreaches i) : m.Respects (execute i) i.operands := by
  cases i with
  | done => exact (respects_done hfloor).bind_pure none
  | nop => exact respects_pure hfloor none
  | pushNil | pushInt _ | pushFloat _ | pushClosure _ => exact respects_push_next hfloor _
  | pushString string =>
    apply respects_get_bind
    · intro _
      rfl
    · exact respects_push_next hfloor _
  | pushTable =>
    refine respects_modifyGet_bind rfl rfl rfl ?_ (respects_push_next ?_ _)
    · exact fun _ => rfl
    · exact hfloor
  | dup =>
    refine respects_top_bind hfloor ?_ fun v => respects_push_next hfloor v
    intro hown
    apply Nat.eq_zero_of_not_pos
    intro hsize
    apply h
    refine ⟨rfl, ?_, hsize⟩
    rw [hown]
    exact Nat.zero_lt_one
  | pop => exact respects_pop_bind hfloor fun m' v h' => respects_pure h' none
  | tablePut =>
    apply respects_pop_bind hfloor
    intro m₁ value h₁
    apply respects_pop_bind h₁
    intro m₂ keyValue h₂
    apply respects_pop_bind h₂
    intro m₃ tableValue h₃
    apply respects_require_bind h₃
    intro id
    apply respects_require_bind h₃
    intro key
    refine respects_modify_bind rfl rfl rfl ?_ (respects_pure ?_ none)
    · exact fun _ => rfl
    · exact h₃
  | tableGet =>
    apply respects_pop_bind hfloor
    intro m₁ keyValue h₁
    apply respects_pop_bind h₁
    intro m₂ tableValue h₂
    apply respects_require_bind h₂
    intro id
    apply respects_require_bind h₂
    intro key
    apply respects_get_bind
    · intro _
      rfl
    · exact respects_push_next h₂ _
  | globalLoad name =>
    apply respects_get_bind
    · intro _
      rfl
    · exact respects_push_next hfloor _
  | globalStore name =>
    apply respects_pop_bind hfloor
    intro m₁ value h₁
    refine respects_modify_bind rfl rfl rfl ?_ (respects_pure ?_ none)
    · exact fun _ => rfl
    · exact h₁
  | localLoad index =>
    apply respects_get_bind
    · intro _
      rfl
    · apply respects_require_bind hfloor
      intro v
      exact respects_push_next hfloor v
  | localStore index =>
    apply respects_pop_bind hfloor
    intro m₁ value h₁
    exact (respects_storeLocal h₁ _ value).bind_pure none
  | call argumentCount =>
    apply respects_call hfloor
    intro hown
    exact Nat.not_le.mp fun hsize => h ⟨rfl, hown, hsize⟩
  | ret0 => exact (respects_ret hfloor .nil).bind_pure none
  | ret1 =>
    apply respects_pop_bind hfloor
    intro m₁ value h₁
    exact (respects_ret h₁ value).bind_pure none
  | jump address => exact respects_jump hfloor address
  | jumpIfZero address | jumpIfNotZero address =>
    apply respects_pop_bind hfloor
    intro m₁ value h₁
    split
    · exact respects_jump h₁ address
    · exact respects_pure h₁ none
  | binary op =>
    apply respects_pop_bind hfloor
    intro m₁ right h₁
    apply respects_pop_bind h₁
    intro m₂ left h₂
    exact respects_require_bind h₂ fun v => respects_push_next h₂ v
  | neg =>
    apply respects_pop_bind hfloor
    intro m₁ value h₁
    exact respects_require_bind h₁ fun v => respects_push_next h₁ v
  | not => exact respects_pop_bind hfloor fun m₁ value h₁ => respects_push_next h₁ _

/-- The position is moved behind an instruction before it is carried out. -/
theorem executeNext_eq {i : Instruction} (hi : m.program.code.decodeAt m.pc = .ok i) :
    executeNext m = execute i { m with pc := m.pc + i.size } := by
  have hread : (get : Action ν (Machine ν)) m = .ok m m := rfl
  unfold executeNext
  refine (bind_ok hread).trans ?_
  rw [hi]
  exact bind_ok rfl

/-- Carrying out the instruction at the position respects the callers unless it overreaches. -/
theorem respects_executeNext (hfloor : m.stackFloor ≤ m.stack.size) {i : Instruction}
    (hi : m.program.code.decodeAt m.pc = .ok i) (h : ¬m.Overreaches i) :
    m.Respects executeNext i.operands := by
  apply respects_get_bind
  · intro _
    rfl
  · rw [hi]
    refine respects_modify_bind rfl rfl rfl ?_ (respects_execute ?_ h)
    · exact fun _ => rfl
    · exact hfloor

/-- Code that cannot be decoded respects the callers. -/
theorem respects_executeNext_of_error (hfloor : m.stackFloor ≤ m.stack.size) {e : DecodeError}
    (he : m.program.code.decodeAt m.pc = .error e) : m.Respects executeNext 0 := by
  apply respects_get_bind
  · intro _
    rfl
  · rw [he]
    exact respects_throw hfloor _

/-- An instruction that overreaches does not fail for want of operands. -/
theorem ends_execute_of_overreaches {i : Instruction} (h : m.Overreaches i) :
    Ends (execute i) m (fun _ _ => True) (fun e _ => e ≠ .stackUnderflow) := by
  obtain ⟨hwhole, _, hoperands⟩ := h
  cases i with
  | dup =>
    have hpush (v : Value) : Ends (push v) m (fun _ _ => True) (fun e _ => e ≠ .stackUnderflow) :=
      ends_push (fun _ => trivial) fun _ => (nomatch ·)
    refine Ends.bind (ends_top (fun rest v _ => ?_) fun hempty => ?_) fun v m' h => h
    · exact (hpush v).bind fun _ _ _ => ends_pure trivial
    · change 1 ≤ m.stack.size at hoperands
      omega
  | call argumentCount =>
    change argumentCount.toNat + 1 ≤ m.stack.size at hoperands
    refine ends_call (fun _ _ _ _ _ => trivial) (fun _ _ _ _ _ _ _ => trivial) (fun hsize => ?_)
      (fun _ => (nomatch ·)) (fun _ _ _ _ _ => (nomatch ·)) fun _ => (nomatch ·)
    omega
  | _ => cases hwhole

/-- Pushing the called value and its arguments; the call takes no other operands. -/
theorem respects_pushCall (hfloor : m.stackFloor ≤ m.stack.size) (callee : Value)
    (arguments : List Value) : m.Respects (pushCall callee arguments) 0 := by
  have hall (n : Nat) (arguments : List Value) : ∀ m : Machine ν, m.stackFloor ≤ m.stack.size →
      n + 1 ≤ m.own + arguments.length →
      m.Respects (arguments.forM push >>= fun _ => call n) 0 := by
    induction arguments with
    | nil =>
      intro m hfloor hown
      have hcall : m.Respects (call n) (n + 1) :=
        respects_call hfloor fun h => absurd hown (Nat.not_le.mpr h)
      exact respects_of_blind hcall.blind hcall.affects
    | cons v rest ih =>
      intro m hfloor hown
      change m.Respects ((push v >>= fun _ => rest.forM push) >>= fun _ => call n) 0
      rw [bind_assoc]
      refine respects_push_bind hfloor v fun m' hfloor' hown' => ih m' hfloor' ?_
      rw [List.length_cons] at hown
      omega
  refine respects_push_bind hfloor callee fun m' hfloor' hown => hall _ arguments m' hfloor' ?_
  omega

end Machine

end Swarm
