import Swarm.Proofs.History
import Swarm.Proofs.SoundLife

/-!
# Rows of tables

The rows of a table come in the order of their keys. None of them holds the empty
value, since storing it removes the row. Tables are changed in no other way, neither
by instructions nor by the host, so this holds of all tables of a machine wherever
its life has led.
-/

namespace Swarm

/-- Integers come before strings, integers in the order of their values and strings in the order of
their ids. -/
def TableKey.Precedes : TableKey → TableKey → Prop
  | .int a, .int b => a.toInt < b.toInt
  | .int _, .str _ => True
  | .str _, .int _ => False
  | .str a, .str b => a.index < b.index

/-- Keys are compared by what precedes what. -/
theorem TableKey.compare_eq_lt_iff {a b : TableKey} : compare a b = .lt ↔ a.Precedes b := by
  cases a with
  | int a =>
    cases b with
    | int b =>
      change compare a b = .lt ↔ a.toInt < b.toInt
      rw [Std.compare_eq_lt, Int64.lt_iff_toInt_lt]
    | str b => exact iff_of_true rfl trivial
  | str a =>
    cases b with
    | int b => exact iff_of_false (fun h => by cases h) id
    | str b => exact Nat.compare_eq_lt

/-- Every key comes once, after all keys that precede it. -/
theorem Table.ascending (t : Table) :
    t.toList.Pairwise fun row row' => row.1.Precedes row'.1 :=
  Std.TreeMap.ordered_keys_toList.imp TableKey.compare_eq_lt_iff.mp

/-- No row holds the empty value. -/
def Table.NilFree (t : Table) : Prop := ∀ key : TableKey, t.rows[key]? ≠ some .nil

/-- Putting the empty value erases a row, so that none holds it. -/
theorem Table.NilFree.put {t : Table} (h : t.NilFree) (key : TableKey) (value : Value) :
    (t.put key value).NilFree := by
  intro other
  unfold Table.put
  split
  · rw [Std.TreeMap.getElem?_erase]
    split
    · simp
    · exact h other
  · rename_i hvalue
    rw [Std.TreeMap.getElem?_insert]
    split
    · rintro heq
      rw [Option.some.inj heq] at hvalue
      exact hvalue rfl
    · exact h other

namespace Heap

/-- No row of any table holds the empty value. -/
def NilFree (h : Heap) : Prop := ∀ id, (h.table id).NilFree

variable {h : Heap}

/-- Without tables there is no row with the empty value. -/
theorem nilFree_empty : NilFree {} := by
  intro id key
  simp [table]

/-- A new table has no rows. -/
theorem NilFree.alloc (hh : h.NilFree) : h.alloc.1.NilFree := fun id => by
  rw [table_alloc]
  exact hh id

/-- Putting a value into one table leaves no row with the empty value. -/
theorem NilFree.put (hh : h.NilFree) (id : TableId) (key : TableKey) (value : Value) :
    (h.put id key value).NilFree := by
  intro other
  rcases h.table_put id other key value with heq | heq
  · rw [heq]
    exact hh other
  · rw [heq]
    exact (hh other).put key value

end Heap

namespace Action

variable {ν α β : Type} {act : Action ν α} {next : α → Action ν β}

/-- The action leaves no row with the empty value, whether it succeeds or fails. -/
def KeepsRows (act : Action ν α) : Prop :=
  ∀ m, m.store.heap.NilFree →
    Ends act m (fun _ m' => m'.store.heap.NilFree) fun _ m' => m'.store.heap.NilFree

/-- Two actions that keep rows keep them one after the other. -/
theorem KeepsRows.bind (h : KeepsRows act) (hnext : ∀ a, KeepsRows (next a)) :
    KeepsRows (act >>= next) :=
  fun m hm => (h m hm).bind fun a m' hm' => hnext a m' hm'

/-- Returning a value changes no row. -/
theorem keepsRows_pure (a : α) : KeepsRows (pure a : Action ν α) := fun _ hm => hm

/-- Failing changes no row. -/
theorem keepsRows_throw (e : RuntimeError) : KeepsRows (throw e : Action ν α) := fun _ hm => hm

/-- Looking at the machine changes no row. -/
theorem keepsRows_get : KeepsRows (get : Action ν (Machine ν)) := fun _ hm => hm

/-- A change that keeps rows. -/
theorem keepsRows_modify {f : Machine ν → Machine ν}
    (hf : ∀ m, m.store.heap.NilFree → (f m).store.heap.NilFree) :
    KeepsRows (modify f : Action ν PUnit) := hf

/-- A change with a result that keeps rows. -/
theorem keepsRows_modifyGet {f : Machine ν → α × Machine ν}
    (hf : ∀ m, m.store.heap.NilFree → (f m).2.store.heap.NilFree) :
    KeepsRows (modifyGet f : Action ν α) := hf

end Action

namespace Machine

open Swarm.Action

variable {ν : Type}

/-- Pushing a value changes no row. -/
theorem keepsRows_push (v : Value) : KeepsRows (push v : Action ν Unit) :=
  fun _ hm => ends_push (fun _ => hm) fun _ => hm

/-- Popping a value changes no row. -/
theorem keepsRows_pop : KeepsRows (pop : Action ν Value) :=
  fun _ hm => ends_pop (fun _ _ _ _ => hm) fun _ => hm

/-- Looking at the topmost value changes no row. -/
theorem keepsRows_top : KeepsRows (top : Action ν Value) :=
  fun _ hm => ends_top (fun _ _ _ => hm) fun _ => hm

/-- Requiring a result changes no row. -/
theorem keepsRows_require {α : Type} (result : Except RuntimeError α) :
    KeepsRows (require result : Action ν α) := by
  cases result with
  | ok a => exact keepsRows_pure a
  | error e => exact keepsRows_throw e

/-- A jump changes no row. -/
theorem keepsRows_jump (address : UInt32) : KeepsRows (jump address : Action ν Unit) :=
  keepsRows_modify fun _ hm => hm

/-- A call changes no row. -/
theorem keepsRows_call (n : Nat) : KeepsRows (call n : Action ν (Option ν)) :=
  fun _ hm => ends_call (fun _ _ _ _ _ => hm) (fun _ _ _ _ _ _ _ => hm) (fun _ => hm) (fun _ => hm)
    (fun _ _ _ _ _ => hm) fun _ => hm

/-- A return changes no row. -/
theorem keepsRows_ret (v : Value) : KeepsRows (ret v : Action ν Unit) :=
  fun _ hm => ends_ret (fun _ _ _ => keepsRows_push v _ hm) fun _ => hm

/-- The end of the body changes no row. -/
theorem keepsRows_done : KeepsRows (done : Action ν Unit) :=
  fun _ hm => ends_done (fun _ _ _ _ => hm) (fun _ _ _ _ => hm) fun _ => hm

/-- Setting a local symbol changes no row. -/
theorem keepsRows_storeLocal (index : Nat) (v : Value) :
    KeepsRows (storeLocal index v : Action ν Unit) :=
  fun _ hm => ends_storeLocal (fun _ _ _ => hm) fun _ => hm

/-- No instruction leaves a row with the empty value. -/
theorem keepsRows_execute (i : Instruction) : KeepsRows (execute i : Action ν (Option ν)) := by
  have hnone : KeepsRows (pure none : Action ν (Option ν)) := keepsRows_pure none
  have hpush (v : Value) : KeepsRows (do push v; return none : Action ν (Option ν)) :=
    (keepsRows_push v).bind fun _ => hnone
  cases i with
  | done => exact keepsRows_done.bind fun _ => hnone
  | nop => exact hnone
  | pushNil | pushInt _ | pushFloat _ | pushClosure _ => exact hpush _
  | pushString string => exact keepsRows_get.bind fun m => hpush _
  | pushTable =>
    refine KeepsRows.bind (keepsRows_modifyGet fun m hm => ?_) fun id => hpush _
    exact hm.alloc
  | dup => exact keepsRows_top.bind fun v => hpush v
  | pop => exact keepsRows_pop.bind fun _ => hnone
  | tablePut =>
    refine keepsRows_pop.bind fun value => keepsRows_pop.bind fun keyValue =>
      keepsRows_pop.bind fun tableValue => (keepsRows_require _).bind fun id =>
      (keepsRows_require _).bind fun key => KeepsRows.bind (keepsRows_modify fun m hm => ?_)
      fun _ => hnone
    exact hm.put id key value
  | tableGet =>
    refine keepsRows_pop.bind fun keyValue => keepsRows_pop.bind fun tableValue =>
      (keepsRows_require _).bind fun id => (keepsRows_require _).bind fun key => ?_
    exact keepsRows_get.bind fun m => hpush _
  | globalLoad name => exact keepsRows_get.bind fun m => hpush _
  | globalStore name =>
    exact keepsRows_pop.bind fun value => KeepsRows.bind (keepsRows_modify fun _ hm => hm)
      fun _ => hnone
  | localLoad index =>
    exact keepsRows_get.bind fun m => (keepsRows_require _).bind fun v => hpush v
  | localStore index =>
    exact keepsRows_pop.bind fun v => (keepsRows_storeLocal _ v).bind fun _ => hnone
  | call argumentCount => exact keepsRows_call _
  | ret0 => exact (keepsRows_ret .nil).bind fun _ => hnone
  | ret1 => exact keepsRows_pop.bind fun v => (keepsRows_ret v).bind fun _ => hnone
  | jump address => exact (keepsRows_jump address).bind fun _ => hnone
  | jumpIfZero address | jumpIfNotZero address =>
    refine keepsRows_pop.bind fun v => ?_
    split
    · exact (keepsRows_jump address).bind fun _ => hnone
    · exact hnone
  | binary op =>
    exact keepsRows_pop.bind fun right => keepsRows_pop.bind fun left =>
      (keepsRows_require _).bind fun v => hpush v
  | neg => exact keepsRows_pop.bind fun v => (keepsRows_require _).bind fun v => hpush v
  | not => exact keepsRows_pop.bind fun v => hpush _

/-- The next instruction leaves no row with the empty value. -/
theorem keepsRows_executeNext : KeepsRows (executeNext : Action ν (Option ν)) := by
  refine keepsRows_get.bind fun m => ?_
  split
  · exact keepsRows_throw _
  · exact KeepsRows.bind (keepsRows_modify fun _ hm => hm) fun _ => keepsRows_execute _

/-- Pushing a value with its arguments and calling it changes no row. -/
theorem keepsRows_pushCall (callee : Value) (arguments : List Value) :
    KeepsRows (pushCall callee arguments : Action ν (Option ν)) := by
  have hforM : KeepsRows (arguments.forM push : Action ν PUnit) := by
    induction arguments with
    | nil => exact keepsRows_pure _
    | cons v rest ih => exact (keepsRows_push v).bind fun _ => ih
  exact (keepsRows_push callee).bind fun _ => hforM.bind fun _ => keepsRows_call _

end Machine

namespace Execution

variable {ν κ σ : Type} {m : Machine ν} {w : World σ} {activation : Activation}
  {waiting : List (Suspended κ)}

/-- A failure changes no row. -/
theorem nilFree_fail (hm : m.store.heap.NilFree) (pc : Nat) (error : RuntimeError) :
    (fail m w activation waiting pc error).machine.store.heap.NilFree := by
  change (m.recordFault pc error).store.heap.NilFree
  unfold Machine.recordFault
  split <;> exact hm

/-- The start of a call changes no row. -/
theorem nilFree_startCall (hm : m.store.heap.NilFree) (callee : Value) (arguments : List Value) :
    (startCall m w waiting callee arguments).machine.store.heap.NilFree := by
  have hends := Machine.keepsRows_pushCall callee arguments m hm
  unfold Action.Ends at hends
  unfold startCall
  dsimp only
  split
  · split <;> rename_i heq <;> rw [heq] at hends
    · exact hends
    · exact hends
    · exact nilFree_fail hends _ _
  · exact hm

/-- The start of the body changes no row. -/
theorem nilFree_startScript (hm : m.store.heap.NilFree) :
    (startScript m w waiting).machine.store.heap.NilFree := by
  unfold startScript
  dsimp only
  split <;> exact hm

/-- What a native function asks for changes no row. -/
theorem nilFree_follow (hm : m.store.heap.NilFree) (origin : Option Nat) (move : Move κ) :
    (follow m w activation waiting origin move).machine.store.heap.NilFree := by
  match move with
  | .finish (.ok value) =>
    have hends := Machine.keepsRows_ret value m hm
    unfold Action.Ends at hends
    simp only [follow]
    split <;> rename_i heq <;> rw [heq] at hends
    · exact hends
    · exact nilFree_fail hends _ _
  | .finish (.error error) => exact nilFree_fail hm _ _
  | .call callee arguments rest => exact nilFree_startCall hm callee arguments
  | .runScript rest => exact nilFree_startScript hm

/-- The end of an activation changes no row. -/
theorem nilFree_close (hm : m.store.heap.NilFree) :
    (close m w activation waiting).machine.store.heap.NilFree := by
  have hends := Machine.keepsRows_pop m hm
  unfold Action.Ends at hends
  unfold close
  split
  · exact hm
  · split <;> rename_i heq <;> rw [heq] at hends <;> exact hends

/-- Carrying out an instruction leaves no row with the empty value. -/
theorem nilFree_advance (hm : m.store.heap.NilFree) :
    (advance m w activation waiting).machine.store.heap.NilFree := by
  have hends := Machine.keepsRows_executeNext m hm
  unfold Action.Ends at hends
  unfold advance
  dsimp only
  split <;> rename_i heq <;> rw [heq] at hends
  · exact hends
  · exact hends
  · exact nilFree_fail hends _ _

end Execution

/-- A value of the host is never a table. -/
theorem Store.heap_ofHost {ν : Type} (s : Store ν) (v : HostValue) :
    (s.ofHost v).1.heap = s.heap := by
  cases v <;> rfl

/-- Built-in functions change no table. -/
theorem Builtin.heap_enter {ν : Type} (b : Builtin) (m : Machine ν) :
    (b.enter m).2.heap = m.store.heap := by
  have hfinish {result : Except RuntimeError (Store ν)}
      (h : ∀ s, result = .ok s → s.heap = m.store.heap) :
      (finishWith m result).2.heap = m.store.heap := by
    cases result with
    | ok s => exact h s rfl
    | error e => rfl
  cases b with
  | send =>
    refine hfinish fun s hs => ?_
    unfold runSend at hs
    cases hargument : m.argument "send" 1 with
    | error e => rw [hargument] at hs; cases hs
    | ok v => rw [hargument] at hs; cases v <;> cases hs; rfl
  | listen =>
    refine hfinish fun s hs => ?_
    unfold runListen at hs
    cases hargument : m.argument "listen" 1 with
    | error e => rw [hargument] at hs; cases hs
    | ok v => rw [hargument] at hs; cases v <;> cases hs; rfl
  | size => rfl
  | foreach =>
    simp only [enter]
    split <;> rfl

/-- Native functions change no table. -/
theorem Native.heap_enter {σ : Type} (hooks : HookTable σ) (native : Native) (m : Machine Native)
    (w : World σ) : ((Native.system hooks).enter native m w).store.heap = m.store.heap := by
  cases native with
  | builtin b => exact b.heap_enter m
  | print => rfl
  | hook slot owner =>
    change (hooks.dispatch slot owner m w).2.1.heap = m.store.heap
    unfold HookTable.dispatch
    cases hooks.slot? slot with
    | none => rfl
    | some hook =>
      dsimp only
      split
      · rfl
      · exact m.store.heap_ofHost _

/-- A step leaves no row with the empty value. -/
theorem Execution.nilFree_step {σ : Type} (hooks : HookTable σ)
    {e : Execution Native Traversal σ} (he : e.machine.store.heap.NilFree) :
    (e.step (Native.system hooks)).machine.store.heap.NilFree := by
  match e with
  | ⟨m, w, activation, .running, waiting⟩ =>
    simp only [step]
    split
    · exact nilFree_advance he
    · exact nilFree_close he
  | ⟨m, w, activation, .entering native origin, waiting⟩ =>
    refine nilFree_follow ?_ origin _
    exact (Native.heap_enter hooks native m w).symm ▸ he
  | ⟨m, w, _, .leaving result, ⟨activation, origin, rest⟩ :: waiting⟩ =>
    exact nilFree_follow (m := { m with store := m.store }) he origin _
  | ⟨m, w, activation, .leaving result, []⟩ => exact he

namespace Store

variable {s s' : Store Native}

/-- The table of a point has no row with the empty value. -/
theorem nilFree_newPoint (hs : s.heap.NilFree) (p : Position) : (s.newPoint p).1.heap.NilFree :=
  ((hs.alloc.put _ _ _).put _ _ _).put _ _ _

/-- The host changes tables no differently than scripts do. -/
theorem HostChange.nilFree (h : s.HostChange s') (hs : s.heap.NilFree) : s'.heap.NilFree := by
  cases h with
  | resetNeighbors => exact hs.alloc
  | addNeighbor n => exact (nilFree_newPoint hs n.position).put _ _ _
  | setPosition p => exact nilFree_newPoint hs p
  | receive message => exact hs
  | takeOutbound => exact hs
  | define name native => exact hs

/-- Taking messages changes no table. -/
theorem heap_nextDelivery {ν σ : Type} (contextId : UInt16) (s : Store ν) (w : World σ) :
    (s.nextDelivery contextId w).2.1.heap = s.heap := by
  fun_induction Store.nextDelivery contextId s w with
  | case1 s w => rfl
  | case2 s w message mailbox htake t hlistener ih => exact ih
  | case3 s w message mailbox htake t listener hlistener _ _ hintern =>
    cases hintern
    rfl

end Store

namespace Stage

variable {σ : Type} {s s' : Stage σ}

/-- No move in the life of a machine leaves a row with the empty value. -/
theorem Next.nilFree (h : s.Next s') (hs : s.machine.store.heap.NilFree) :
    s'.machine.store.heap.NilFree := by
  have hdeliver {m m' : Machine Native} {w w' : World σ} {delivery : Option (Value × List Value)}
      (hm : m.store.heap.NilFree) (hnext : m.nextDelivery w = (delivery, m', w')) :
      m'.store.heap.NilFree := by
    have hm' : (m.nextDelivery w).2.1 = m' := by rw [hnext]
    rw [← hm']
    exact (Store.heap_nextDelivery m.contextId m.store w).symm ▸ hm
  cases h with
  | change h => exact h.nilFree hs
  | drop hnext => exact hdeliver hs hnext
  | hear hnext => exact Execution.nilFree_startCall (hdeliver hs hnext) _ _
  | body m w => exact Execution.nilFree_startScript hs
  | call m w name => exact Execution.nilFree_startCall hs _ _
  | step hooks e => exact Execution.nilFree_step hooks hs
  | leave m w activation result => exact hs

/-- Wherever the life of a machine has led, no row of its tables holds the empty value. -/
theorem Reached.nilFree (h : s.Reached) : s.machine.store.heap.NilFree := by
  induction h with
  | load h limits contextId =>
    have hmap (m : Machine Native) (f : Store Native → Store Native) :
        (m.mapStore f).store = f m.store := rfl
    have hset (s : Store Native) (name : Bytes) (v : Value) : (s.setGlobal name v).heap = s.heap :=
      rfl
    have hshown (s : Store Native) : s.resetNeighbors.installPrint.heap = s.heap.alloc.1 := by
      unfold Store.installPrint Store.resetNeighbors
      simp only [hset]
      rfl
    change (Machine.loaded _ limits contextId).store.heap.NilFree
    rw [Machine.loaded, hmap, Machine.new_eq, hshown,
      (Store.foldl_install Native.builtin Builtin.all _).1, hset]
    exact Heap.nilFree_empty.alloc
  | next _ hnext ih => exact hnext.nilFree ih
  | release _ ih => exact ih

end Stage

/-- A read of a table tells whether there is a row. -/
theorem Table.NilFree.mem_toList_iff {t : Table} (h : t.NilFree) {key : TableKey} {value : Value} :
    (key, value) ∈ t.toList ↔ t.get key = value ∧ value ≠ .nil := by
  rw [Table.mem_toList_iff]
  unfold Table.get
  cases hrow : t.rows[key]? with
  | none => simp [eq_comm]
  | some v =>
    have hv : v ≠ .nil := fun heq => h key (heq ▸ hrow)
    simp only [Option.some.injEq, Option.getD_some]
    exact ⟨fun heq => ⟨heq, heq ▸ hv⟩, And.left⟩

end Swarm
