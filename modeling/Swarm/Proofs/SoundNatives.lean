import Swarm.Bridge.Native
import Swarm.Proofs.SoundExecution

/-!
# Native functions of loaded scripts are sound

The functions that every script has, the function that prints and all hooks leave
a sound machine sound. A traversal holds rows of a table that could be reached
when it began; whatever its visitor does in the meantime, they stay trusted.
-/

namespace Swarm

/-- The values that a traversal holds while it waits. -/
def Traversal.held (t : Traversal) : List Value :=
  t.visitor :: t.rest.flatMap fun row => [row.1.toValue, row.2]

section Traversal

variable {ν : Type} {m : Machine ν} {t : Traversal}

/-- A visit of trusted rows calls a trusted value with trusted arguments. -/
theorem Traversal.trusted_move (ht : ∀ v ∈ t.held, m.Trusts v) : t.move.Trusted held m := by
  unfold move
  split
  · exact Store.trusts_nil
  · rename_i key value rest hrest
    have hrow (v : Value) (hv : v ∈ [key.toValue, value]) : m.Trusts v := by
      refine ht v (List.mem_cons_of_mem _ (List.mem_flatMap.mpr ⟨(key, value), ?_, hv⟩))
      rw [hrest]
      exact List.mem_cons_self
    refine ⟨ht _ List.mem_cons_self, hrow, fun v hv => ht v ?_⟩
    rcases List.mem_cons.mp hv with rfl | hv
    · exact List.mem_cons_self
    · obtain ⟨row, hmem, hv⟩ := List.mem_flatMap.mp hv
      refine List.mem_cons_of_mem _ (List.mem_flatMap.mpr ⟨row, ?_, hv⟩)
      rw [hrest]
      exact List.mem_cons_of_mem _ hmem

/-- A visit goes on in a sound way, or ends with the error of its visitor. -/
theorem Traversal.trusted_resume (ht : ∀ v ∈ t.held, m.Trusts v)
    {result : Except RuntimeError Value} (hresult : (Phase.leaving result).Trusted m) :
    (t.resume result).Trusted held m := by
  cases result with
  | ok v => exact trusted_move ht
  | error e => exact hresult

end Traversal

namespace Machine

variable {ν : Type} {m : Machine ν}

/-- Arguments are trusted. -/
theorem Sound.trusts_argument (hm : m.Sound) {function : String} {index : Nat} {v : Value}
    (h : m.argument function index = .ok v) : m.Trusts v := by
  unfold argument at h
  split at h
  · cases h
  · have hkeeps := keeps_local hm index
    rw [h] at hkeeps
    exact hkeeps.2

/-- A missing argument is an expected error. -/
theorem argument_error {code : Code} {function : String} {index : Nat} {e : RuntimeError}
    (h : m.argument function index = .error e) : e.Expected code := by
  unfold argument at h
  split at h
  · cases h
    trivial
  · unfold local? at h
    split at h <;> cases h
    trivial

/-- The result of a calculation, or the error that it fails with. -/
def Calculates {α : Type} (m : Machine ν) (P : α → Prop) : Except RuntimeError α → Prop
  | .ok a => P a
  | .error e => e.Expected m.program.code

/-- A calculation that begins with an argument. -/
theorem Sound.calculates_argument {α : Type} (hm : m.Sound) (function : String) (index : Nat)
    {next : Value → Except RuntimeError α} {P : α → Prop}
    (hnext : ∀ v, m.Trusts v → m.Calculates P (next v)) :
    m.Calculates P (m.argument function index >>= next) := by
  cases hargument : m.argument function index with
  | error e => exact argument_error hargument
  | ok v => exact hnext v (hm.trusts_argument hargument)

end Machine

namespace Builtin

variable {ν : Type} {m : Machine ν}

/-- Sending a payload keeps the store sound. -/
theorem calculates_runSend (hm : m.Sound) :
    m.Calculates (m.store.Evolves m.program.code) (runSend m) := by
  refine hm.calculates_argument "send" 1 fun v _ => ?_
  cases v with
  | str id => exact hm.store.setMailbox _
  | _ => trivial

/-- Setting a listener keeps the store sound. -/
theorem calculates_runListen (hm : m.Sound) :
    m.Calculates (m.store.Evolves m.program.code) (runListen m) := by
  refine hm.calculates_argument "listen" 1 fun v hv => ?_
  cases v with
  | closure c => exact hm.store.setListener hv
  | _ => trivial

/-- The size of a table is trusted. -/
theorem calculates_runSize (hm : m.Sound) : m.Calculates m.Trusts (runSize m) := by
  refine hm.calculates_argument "size" 1 fun v _ => ?_
  cases v with
  | table id => exact Store.trusts_int _
  | _ => trivial

/-- The rows of a trusted table are trusted. -/
theorem calculates_beginForeach (hm : m.Sound) :
    m.Calculates (fun t => ∀ v ∈ t.held, m.Trusts v) (beginForeach m) := by
  refine hm.calculates_argument "foreach" 1 fun table htable => ?_
  refine hm.calculates_argument "foreach" 2 fun visitor hvisitor => ?_
  cases table with
  | table id =>
    intro v hv
    rcases List.mem_cons.mp hv with rfl | hv
    · exact hvisitor
    · obtain ⟨row, hrow, hv⟩ := List.mem_flatMap.mp hv
      rcases List.mem_cons.mp hv with rfl | hv
      · exact Heap.Confines.key htable hrow
      · rw [List.mem_singleton.mp hv]
        exact Heap.Confines.value htable hrow
  | _ => trivial

/-- A function that changes the store and returns nothing. -/
theorem sound_finishWith {σ : Type} (hm : m.Sound) {result : Except RuntimeError (Store ν)}
    (h : m.Calculates (m.store.Evolves m.program.code) result) (w : World σ) :
    (⟨(finishWith m result).1, (finishWith m result).2, w⟩ : Reply ν Traversal σ).Sound
      Traversal.held m := by
  cases result with
  | ok store => exact ⟨h, Store.trusts_nil⟩
  | error e => exact ⟨hm.store.evolves, h⟩

/-- The functions that every script has reply in a sound way. -/
theorem sound_enter {σ : Type} (hm : m.Sound) (b : Builtin) (w : World σ) :
    (⟨(b.enter m).1, (b.enter m).2, w⟩ : Reply ν Traversal σ).Sound Traversal.held m := by
  cases b with
  | send => exact sound_finishWith hm (calculates_runSend hm) w
  | listen => exact sound_finishWith hm (calculates_runListen hm) w
  | size =>
    have hsize := calculates_runSize hm
    refine ⟨hm.store.evolves, ?_⟩
    simp only [enter]
    cases hresult : runSize m with
    | ok v =>
      rw [hresult] at hsize
      exact hsize
    | error e =>
      rw [hresult] at hsize
      exact hsize
  | foreach =>
    have hbegin := calculates_beginForeach hm
    simp only [enter]
    cases hresult : beginForeach m with
    | ok t =>
      rw [hresult] at hbegin
      exact ⟨hm.store.evolves, Traversal.trusted_move hbegin⟩
    | error e =>
      rw [hresult] at hbegin
      exact ⟨hm.store.evolves, hbegin⟩

end Builtin

/-- A value of the host is trusted in the store that takes it up. -/
theorem Store.Sound.ofHost {ν : Type} {code : Code} {s : Store ν} (hs : s.Sound code)
    (v : HostValue) :
    Evolves code s (s.ofHost v).1 ∧ (s.ofHost v).1.Trusts code (s.ofHost v).2 := by
  cases v with
  | int n => exact ⟨hs.evolves, trusts_int n⟩
  | float x => exact ⟨hs.evolves, trusts_float x⟩
  | bytes bs => exact hs.intern bs
  | bool b => exact ⟨hs.evolves, trusts_int _⟩
  | none | text _ | list _ => exact ⟨hs.evolves, trusts_nil⟩

/-- Whatever a hook does to the world, its result is taken up in a sound way. -/
theorem HookTable.sound_dispatch {ν σ : Type} {m : Machine ν} (hm : m.Sound) (t : HookTable σ)
    (slot : Nat) (owner : Handle) (w : World σ) :
    (⟨.finish (t.dispatch slot owner m w).1, (t.dispatch slot owner m w).2.1,
      (t.dispatch slot owner m w).2.2⟩ : Reply ν Traversal σ).Sound Traversal.held m := by
  unfold dispatch
  cases t.slot? slot with
  | none => exact ⟨hm.store.evolves, trivial⟩
  | some hook =>
    dsimp only
    split
    · exact ⟨hm.store.evolves, trivial⟩
    · rename_i result _ _
      exact ⟨(hm.store.ofHost result).1, (hm.store.ofHost result).2⟩

/-- The native functions of loaded scripts are sound under all bindings of the slots. -/
theorem Native.sound_system {σ : Type} (hooks : HookTable σ) :
    (Native.system hooks).Sound Traversal.held where
  enter native m w hm := by
    cases native with
    | builtin b => exact Builtin.sound_enter hm b w
    | print => exact ⟨hm.store.evolves, Store.trusts_nil⟩
    | hook slot owner => exact hooks.sound_dispatch hm slot owner w
  resume rest result m w hm hrest hresult :=
    ⟨hm.store.evolves, Traversal.trusted_resume hrest hresult⟩

end Swarm
