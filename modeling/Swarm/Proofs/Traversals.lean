import Swarm.Proofs.Callbacks
import Swarm.Proofs.Rows
import Swarm.Proofs.Starts

/-!
# Visits of a table

When `foreach` begins it takes down the rows of a table. Then it calls a function with
one row after the other. In these calls anything may happen, also to the table and
also in another `foreach`, but while the function waits, nothing changes what it
has taken down. So the calls are settled when it begins, and an error only keeps the
rest of them from being made.
-/

namespace Swarm

namespace Execution

section Moves

variable {ν κ σ : Type} {sys : NativeSystem ν κ σ} {e : Execution ν κ σ} {depth n : Nat}

/-- The execution after a number of steps. -/
def ahead (sys : NativeSystem ν κ σ) (e : Execution ν κ σ) (n : Nat) : Execution ν κ σ :=
  (step sys)^[n] e

/-- Looking ahead begins with a step. -/
theorem ahead_succ (e : Execution ν κ σ) (n : Nat) :
    e.ahead sys (n + 1) = (e.step sys).ahead sys n :=
  Function.iterate_succ_apply _ n e

/-- Looking ahead ends with a step. -/
theorem step_ahead (e : Execution ν κ σ) (n : Nat) :
    (e.ahead sys n).step sys = e.ahead sys (n + 1) :=
  (Function.iterate_succ_apply' _ n e).symm

/-- What a native function asks for in the next step while so many others wait below it. -/
def moveAt? (sys : NativeSystem ν κ σ) (depth : Nat) (e : Execution ν κ σ) : Option (Move κ) :=
  if e.callers.length = depth then (e.reply? sys).map Reply.move else none

/-- The calls that native functions make in the first steps while so many others wait below them,
in their order. -/
def callsAt (sys : NativeSystem ν κ σ) (depth : Nat) (e : Execution ν κ σ) :
    Nat → List (Value × List Value)
  | 0 => []
  | n + 1 =>
    match e.moveAt? sys depth with
    | some (.call callee arguments _) => (callee, arguments) :: (e.step sys).callsAt sys depth n
    | _ => (e.step sys).callsAt sys depth n

/-- The native function that begins does not end in the first steps. -/
def AtWork (sys : NativeSystem ν κ σ) (n : Nat) (e : Execution ν κ σ) : Prop :=
  ∀ k < n, ∀ result, (e.ahead sys k).moveAt? sys e.waiting.length ≠ some (.finish result)

instance (move : Option (Move κ)) : Decidable (∀ result, move ≠ some (.finish result)) :=
  match move with
  | some (.finish result) => .isFalse fun h => h result rfl
  | some (.call ..) | some (.runScript _) | none => .isTrue nofun

instance : Decidable (e.AtWork sys n) :=
  inferInstanceAs (Decidable (∀ k < n, _))

/-- A move at a depth is the reply of a native function with as many others waiting. -/
theorem moveAt?_eq_some_iff {move : Move κ} : e.moveAt? sys depth = some move ↔
    e.callers.length = depth ∧ ∃ reply, e.reply? sys = some reply ∧ reply.move = move := by
  unfold moveAt?
  split
  · rename_i hdepth
    simp [hdepth]
  · rename_i hdepth
    simp [hdepth]

/-- While more wait there is no move at the depth. -/
theorem moveAt?_of_lt (h : depth < e.callers.length) : e.moveAt? sys depth = none :=
  if_neg (Nat.ne_of_gt h)

/-- A call that a native function asks for begins in the next step, and the function waits. -/
theorem step_of_call {reply : Reply ν κ σ} {callee : Value} {arguments : List Value} {rest : κ}
    (hreply : e.reply? sys = some reply) (hmove : reply.move = .call callee arguments rest) :
    ∃ s : Suspended κ, s.rest = rest ∧ e.step sys = startCall
      { e.machine with store := reply.store } reply.world (s :: e.callers) callee arguments := by
  match e with
  | ⟨m, w, activation, .entering native origin, waiting⟩ =>
    cases hreply
    refine ⟨⟨activation, origin, rest⟩, rfl, ?_⟩
    simp only [step, hmove]
    rfl
  | ⟨m, w, _, .leaving result, ⟨activation, origin, held⟩ :: waiting⟩ =>
    cases hreply
    refine ⟨⟨activation, origin, rest⟩, rfl, ?_⟩
    simp only [step, hmove]
    rfl

/-- A native function that waits goes on in the next step, or waits even after it. -/
theorem callers_of_waiting {up below : List (Suspended κ)} {s : Suspended κ}
    (hwaiting : e.waiting = up ++ s :: below) :
    (up = [] ∧ ∃ result, e.phase = .leaving result) ∨ ∃ up, e.callers = up ++ s :: below := by
  unfold callers
  split
  · rename_i result hphase
    cases up with
    | nil => exact .inl ⟨rfl, result, hphase⟩
    | cons first up => exact .inr ⟨up, by rw [hwaiting]; rfl⟩
  · exact .inr ⟨up, hwaiting⟩

end Moves

section Visiting

variable {σ : Type} {hooks : HookTable σ} {e : Execution Native Traversal σ} {t : Traversal}
  {below : List (Suspended Traversal)} {visitor : Value} {rows : List (TableKey × Value)} {n : Nat}

/-- The traversal waits for the end of a call that it has made; in the call others may wait. -/
def Visiting (t : Traversal) (below : List (Suspended Traversal))
    (e : Execution Native Traversal σ) : Prop :=
  ∃ up s, e.waiting = up ++ s :: below ∧ s.rest = t

/-- Nothing that happens in a call changes the traversal that has made it, and when the call has
ended the traversal goes on with the result. -/
theorem Visiting.step (h : e.Visiting t below) (hooks : HookTable σ) :
    (below.length < e.callers.length ∧ (e.step (Native.system hooks)).Visiting t below) ∨
      ∃ result, e.phase = .leaving result ∧ e.callers = below ∧
        e.moveAt? (Native.system hooks) below.length = some (t.resume result) ∧
          ∀ callee arguments rest, t.resume result = .call callee arguments rest →
            (e.step (Native.system hooks)).Visiting rest below := by
  obtain ⟨up, s, hwaiting, rfl⟩ := h
  rcases callers_of_waiting hwaiting with ⟨rfl, result, hphase⟩ | ⟨up', hcallers⟩
  · right
    have hcallers : e.callers = below := by
      unfold callers
      rw [hphase, hwaiting]
      rfl
    have hreply : e.reply? (Native.system hooks) =
        some ⟨s.rest.resume result, e.machine.store, e.world⟩ := by
      unfold reply?
      rw [hphase, hwaiting]
      rfl
    refine ⟨result, hphase, hcallers,
      moveAt?_eq_some_iff.mpr ⟨congrArg List.length hcallers, _, hreply, rfl⟩,
      fun callee arguments rest hmove => ?_⟩
    obtain ⟨s', hrest, hstep⟩ := step_of_call hreply hmove
    refine ⟨[], s', ?_, hrest⟩
    rw [hstep, waiting_startCall, hcallers]
    rfl
  · left
    constructor
    · rw [hcallers, List.length_append, List.length_cons]
      omega
    · rcases waiting_step (Native.system_forwards hooks) e with hsame | ⟨s', _, _, _, _, _, hstep⟩
      · exact ⟨up', s, hsame.trans hcallers, rfl⟩
      · refine ⟨s' :: up', s, ?_, rfl⟩
        rw [hstep, startCall_above, waiting_startCall, hcallers]
        rfl

/-- The call of the visitor with a row. -/
def visit (visitor : Value) (row : TableKey × Value) : Value × List Value :=
  (visitor, [row.1.toValue, row.2])

/-- As long as a traversal does not end, it makes one call for each of the next rows. The induction
is on the steps; each of them is either one in a call, or the one with which the next call
begins. -/
theorem Visiting.callsAt (h : e.Visiting ⟨visitor, rows⟩ below)
    (hwork : ∀ k < n, ∀ result,
      (e.ahead (Native.system hooks) k).moveAt? (Native.system hooks) below.length ≠
        some (.finish result)) :
    ∃ i ≤ rows.length, e.callsAt (Native.system hooks) below.length n =
        (rows.take i).map (visit visitor) ∧
      (e.ahead (Native.system hooks) n).Visiting ⟨visitor, rows.drop i⟩ below := by
  induction n generalizing e rows with
  | zero => exact ⟨0, Nat.zero_le _, rfl, h⟩
  | succ n ih =>
    have hrest : ∀ k < n, ∀ result, ((e.step (Native.system hooks)).ahead (Native.system hooks)
        k).moveAt? (Native.system hooks) below.length ≠ some (.finish result) := fun k hk => by
      rw [← ahead_succ]
      exact hwork (k + 1) (Nat.succ_lt_succ hk)
    have hnow := hwork 0 (Nat.succ_pos n)
    change ∀ result, e.moveAt? _ _ ≠ _ at hnow
    unfold Execution.callsAt
    rw [ahead_succ]
    rcases h.step hooks with ⟨hdeep, hvisiting⟩ | ⟨result, _, _, hmove, hnext⟩
    · rw [moveAt?_of_lt hdeep]
      exact ih hvisiting hrest
    · cases result with
      | error error => exact absurd hmove (hnow _)
      | ok v =>
        cases rows with
        | nil => exact absurd hmove (hnow _)
        | cons row rows =>
          obtain ⟨i, hi, hcalls, hvisiting⟩ := ih (hnext _ _ _ rfl) hrest
          refine ⟨i + 1, Nat.succ_le_succ hi, ?_, hvisiting⟩
          rw [hmove]
          exact congrArg (visit visitor row :: ·) hcalls

/-- A traversal ends with a value only when no rows are left. -/
theorem resume_eq_ok {result : Except RuntimeError Value} {v : Value}
    (h : t.resume result = .finish (.ok v)) : t.rest = [] ∧ v = .nil := by
  obtain ⟨visitor, rows⟩ := t
  cases result with
  | error error => cases h
  | ok value =>
    cases rows with
    | nil =>
      cases h
      exact ⟨rfl, rfl⟩
    | cons row rows => cases h

/-- A traversal ends with an error only if a call has ended with it. -/
theorem resume_eq_error {result : Except RuntimeError Value} {error : RuntimeError}
    (h : t.resume result = .finish (.error error)) : result = .error error := by
  obtain ⟨visitor, rows⟩ := t
  cases result with
  | error error =>
    cases h
    rfl
  | ok value => cases rows <;> cases h

/-- What `foreach` does first. -/
theorem moveAt?_foreach (hooks : HookTable σ) {origin : Option Nat}
    (hphase : e.phase = .entering (.builtin .foreach) origin)
    (hbegin : Builtin.beginForeach e.machine = .ok t) :
    e.moveAt? (Native.system hooks) e.waiting.length = some t.move ∧
      ∀ callee arguments rest, t.move = .call callee arguments rest →
        (e.step (Native.system hooks)).Visiting rest e.waiting := by
  have hcallers : e.callers = e.waiting := by
    unfold callers
    rw [hphase]
  have hreply : e.reply? (Native.system hooks) =
      some ⟨t.move, e.machine.store, e.world⟩ := by
    unfold reply?
    rw [hphase]
    simp only [Native.system, Native.enter, Builtin.enter, hbegin]
  refine ⟨moveAt?_eq_some_iff.mpr ⟨congrArg List.length hcallers, _, hreply, rfl⟩,
    fun callee arguments rest hmove => ?_⟩
  obtain ⟨s, hrest, hstep⟩ := step_of_call hreply hmove
  refine ⟨[], s, ?_, hrest⟩
  rw [hstep, waiting_startCall, hcallers]
  rfl

/-- As long as `foreach` is at work it has made calls for the first rows, and it waits for the end
of the last one of them, unless it has not begun yet. -/
theorem AtWork.callsAt {origin : Option Nat}
    (hphase : e.phase = .entering (.builtin .foreach) origin)
    (hbegin : Builtin.beginForeach e.machine = .ok ⟨visitor, rows⟩)
    (hwork : e.AtWork (Native.system hooks) n) :
    ∃ i ≤ rows.length, e.callsAt (Native.system hooks) e.waiting.length n =
        (rows.take i).map (visit visitor) ∧
      ((n = 0 ∧ i = 0) ∨ 0 < i ∧
        (e.ahead (Native.system hooks) n).Visiting ⟨visitor, rows.drop i⟩ e.waiting) := by
  obtain ⟨hmove, hnext⟩ := moveAt?_foreach hooks hphase hbegin
  cases n with
  | zero => exact ⟨0, Nat.zero_le _, rfl, .inl ⟨rfl, rfl⟩⟩
  | succ n =>
    cases rows with
    | nil => exact absurd hmove (hwork 0 (Nat.succ_pos n) _)
    | cons row rows =>
      obtain ⟨i, hi, hcalls, hvisiting⟩ := (hnext _ _ _ rfl).callsAt (n := n) fun k hk => by
        rw [← ahead_succ]
        exact hwork (k + 1) (Nat.succ_lt_succ hk)
      refine ⟨i + 1, Nat.succ_le_succ hi, ?_, .inr ⟨Nat.succ_pos i, ?_⟩⟩
      · unfold Execution.callsAt
        rw [hmove]
        exact congrArg (visit visitor row :: ·) hcalls
      · rw [ahead_succ]
        exact hvisiting

/-- An error that comes back from a call ends `foreach`. -/
theorem AtWork.moveAt?_of_error {origin : Option Nat} {error : RuntimeError}
    (hphase : e.phase = .entering (.builtin .foreach) origin)
    (hbegin : Builtin.beginForeach e.machine = .ok ⟨visitor, rows⟩)
    (hwork : e.AtWork (Native.system hooks) n)
    (herror : (e.ahead (Native.system hooks) n).phase = .leaving (.error error))
    (hcallers : (e.ahead (Native.system hooks) n).callers.length = e.waiting.length) :
    (e.ahead (Native.system hooks) n).moveAt? (Native.system hooks) e.waiting.length =
      some (.finish (.error error)) := by
  obtain ⟨i, _, _, ⟨rfl, _⟩ | ⟨_, hvisiting⟩⟩ := hwork.callsAt hphase hbegin
  · cases hphase.symm.trans herror
  · rcases hvisiting.step hooks with ⟨hdeep, _⟩ | ⟨result, hresult, _, hmove, _⟩
    · omega
    · cases hresult.symm.trans herror
      exact hmove

/-- A call that cannot be made ends `foreach` in the step after the one that has tried it. -/
theorem AtWork.starts {origin : Option Nat} {callee : Value} {arguments : List Value}
    {rest : Traversal} (hphase : e.phase = .entering (.builtin .foreach) origin)
    (hbegin : Builtin.beginForeach e.machine = .ok ⟨visitor, rows⟩)
    (hwork : e.AtWork (Native.system hooks) (n + 1))
    (hmove : (e.ahead (Native.system hooks) n).moveAt? (Native.system hooks) e.waiting.length =
      some (.call callee arguments rest)) :
    (e.ahead (Native.system hooks) (n + 1)).StartsCall callee arguments ∨ ∃ error,
      (e.ahead (Native.system hooks) (n + 1)).moveAt? (Native.system hooks) e.waiting.length =
        some (.finish (.error error)) := by
  obtain ⟨hdepth, reply, hreply, hcall⟩ := moveAt?_eq_some_iff.mp hmove
  obtain ⟨s, _, hstep⟩ := step_of_call hreply hcall
  rw [step_ahead] at hstep
  rcases startsCall_startCall { (e.ahead (Native.system hooks) n).machine with
    store := reply.store } reply.world (s :: (e.ahead (Native.system hooks) n).callers) callee
    arguments with hstarts | ⟨error, herror⟩
  · exact .inl (hstep ▸ hstarts)
  · rw [← hstep] at herror
    refine .inr ⟨error, hwork.moveAt?_of_error hphase hbegin herror ?_⟩
    unfold callers
    rw [herror, hstep, waiting_startCall]
    exact hdepth

/-- While `foreach` is at work it ends as a traversal of the rows that are left. -/
theorem AtWork.exists_resume {origin : Option Nat} {result : Except RuntimeError Value}
    (hphase : e.phase = .entering (.builtin .foreach) origin)
    (hbegin : Builtin.beginForeach e.machine = .ok ⟨visitor, rows⟩)
    (hwork : e.AtWork (Native.system hooks) n)
    (hmove : (e.ahead (Native.system hooks) n).moveAt? (Native.system hooks) e.waiting.length =
      some (.finish result)) :
    ∃ i ≤ rows.length, ∃ called, e.callsAt (Native.system hooks) e.waiting.length n =
        (rows.take i).map (visit visitor) ∧
      (⟨visitor, rows.drop i⟩ : Traversal).resume called = .finish result ∧
        ∀ error, called = .error error →
          (e.ahead (Native.system hooks) n).phase = .leaving (.error error) := by
  obtain ⟨i, hi, hcalls, ⟨rfl, rfl⟩ | ⟨_, hvisiting⟩⟩ := hwork.callsAt hphase hbegin
  · -- Without any call the traversal ends as after one that has returned.
    obtain ⟨hfirst, _⟩ := moveAt?_foreach hooks hphase hbegin
    exact ⟨0, hi, .ok .nil, hcalls, Option.some.inj (hfirst.symm.trans hmove), nofun⟩
  · rcases hvisiting.step hooks with ⟨hdeep, _⟩ | ⟨called, hcalled, _, hmove', _⟩
    · cases (moveAt?_of_lt hdeep).symm.trans hmove
    · exact ⟨i, hi, called, hcalls, Option.some.inj (hmove'.symm.trans hmove),
        fun error herror => herror ▸ hcalled⟩

/-- What `foreach` does that begins in the execution, with the rows of the table at that moment. -/
structure VisitsRows (sys : NativeSystem Native Traversal σ) (e : Execution Native Traversal σ)
    (t : Table) (visitor : Value) : Prop where
  /-- The rows are what reads of the table find, so none of them holds the empty value. -/
  held : ∀ key value, (key, value) ∈ t.toList ↔ t.get key = value ∧ value ≠ .nil
  /-- Every key comes once, after all keys that precede it. -/
  ascending : t.toList.Pairwise fun row row' => row.1.Precedes row'.1
  /-- However long it is at work, it calls the visitor with one row after the other. -/
  visits : ∀ n, e.AtWork sys n → ∃ i ≤ t.toList.length,
    e.callsAt sys e.waiting.length n = (t.toList.take i).map (visit visitor)
  /-- When it ends with a value, it has called the visitor with every row, and every call has been
  made. -/
  returns : ∀ n v, e.AtWork sys n →
    (e.ahead sys n).moveAt? sys e.waiting.length = some (.finish (.ok v)) →
      v = .nil ∧ e.callsAt sys e.waiting.length n = t.toList.map (visit visitor) ∧
        ∀ k < n, ∀ callee arguments rest,
          (e.ahead sys k).moveAt? sys e.waiting.length = some (.call callee arguments rest) →
            (e.ahead sys (k + 1)).StartsCall callee arguments
  /-- When a call fails, it is the last one that has been made or tried, and its error ends the
  traversal. -/
  faults : ∀ n error, e.AtWork sys n → (e.ahead sys n).phase = .leaving (.error error) →
    (e.ahead sys n).callers.length = e.waiting.length →
      (e.ahead sys n).moveAt? sys e.waiting.length = some (.finish (.error error)) ∧
        ∃ i < t.toList.length,
          e.callsAt sys e.waiting.length n = (t.toList.take (i + 1)).map (visit visitor)
  /-- There is no other error. -/
  fails : ∀ n error, e.AtWork sys n →
    (e.ahead sys n).moveAt? sys e.waiting.length = some (.finish (.error error)) →
      (e.ahead sys n).phase = .leaving (.error error)

/-- A visit that has begun visits the rows that the table has then. -/
theorem visitsRows {origin : Option Nat} {id : TableId}
    (hphase : e.phase = .entering (.builtin .foreach) origin)
    (hbegin : Builtin.beginForeach e.machine =
      .ok ⟨visitor, (e.machine.store.heap.table id).toList⟩)
    (hrows : e.machine.store.heap.NilFree) :
    e.VisitsRows (Native.system hooks) (e.machine.store.heap.table id) visitor := by
  refine ⟨fun key value => (hrows id).mem_toList_iff, Table.ascending _, fun n hwork => ?_,
    fun n v hwork hmove => ?_, fun n error hwork herror hcallers => ?_,
    fun n error hwork hmove => ?_⟩
  · obtain ⟨i, hi, hcalls, _⟩ := hwork.callsAt hphase hbegin
    exact ⟨i, hi, hcalls⟩
  · obtain ⟨i, _, called, hcalls, hresume, _⟩ := hwork.exists_resume hphase hbegin hmove
    obtain ⟨hrest, hv⟩ := resume_eq_ok hresume
    rw [List.take_of_length_le (List.drop_eq_nil_iff.mp hrest)] at hcalls
    refine ⟨hv, hcalls, fun k hk callee arguments rest hcall => ?_⟩
    have hbefore : e.AtWork (Native.system hooks) (k + 1) := fun k' hk' =>
      hwork k' (Nat.lt_of_lt_of_le hk' hk)
    rcases hbefore.starts hphase hbegin hcall with hstarts | ⟨error, herror⟩
    · exact hstarts
    · rcases Nat.lt_or_eq_of_le hk with hlt | heq
      · exact absurd herror (hwork (k + 1) hlt _)
      · rw [← heq] at hmove
        cases hmove.symm.trans herror
  · refine ⟨hwork.moveAt?_of_error hphase hbegin herror hcallers, ?_⟩
    obtain ⟨i, hi, hcalls, ⟨rfl, _⟩ | ⟨hpos, _⟩⟩ := hwork.callsAt hphase hbegin
    · cases hphase.symm.trans herror
    · refine ⟨i - 1, by omega, ?_⟩
      rw [Nat.sub_add_cancel hpos]
      exact hcalls
  · obtain ⟨_, _, called, _, hresume, herror⟩ := hwork.exists_resume hphase hbegin hmove
    exact herror error (resume_eq_error hresume)

end Visiting

end Execution

/-- An argument is the local symbol with its index. -/
theorem Machine.argument_eq {ν : Type} {m : Machine ν} {index : Nat} {v : Value}
    (h : m.local? index = .ok v) (function : String) : m.argument function index = .ok v := by
  unfold argument
  rw [if_neg, h]
  unfold local? at h
  unfold localCount
  cases hframe : m.frames.back? with
  | none =>
    rw [hframe] at h
    cases h
  | some frame =>
    rw [hframe, Option.bind_some] at h
    split at h
    · rename_i hv
      exact Nat.not_le_of_lt (Array.getElem?_eq_some_iff.mp hv).choose
    · cases h

/-- Whatever a script has done until then and whatever it does in the calls, `foreach` calls the
visitor with the rows that the table has when it begins. -/
theorem Bridge.Reachable.visitsSnapshot {σ : Type} {b : Bridge σ}
    {e : Execution Native Traversal σ} {origin : Option Nat} {id : TableId} {visitor : Value}
    (h : b.Reachable) (he : b.Underway e)
    (hphase : e.phase = .entering (.builtin .foreach) origin)
    (htable : e.machine.local? 1 = .ok (.table id))
    (hvisitor : e.machine.local? 2 = .ok visitor) :
    e.VisitsRows (Native.system b.hooks) (e.machine.store.heap.table id) visitor := by
  refine Execution.visitsRows hphase ?_ (h.reached_underway he).nilFree
  unfold Builtin.beginForeach
  rw [Machine.argument_eq htable, Machine.argument_eq hvisitor]
  rfl

/-- The table and the visitor of a `foreach` that begins. -/
def Execution.traversed? {σ : Type} (e : Execution Native Traversal σ) : Option (TableId × Value) :=
  match e.phase, e.machine.local? 1, e.machine.local? 2 with
  | .entering (.builtin .foreach) _, .ok (.table id), .ok visitor => some (id, visitor)
  | _, _, _ => none

/-- The table and the visitor are the arguments of the call. -/
theorem Execution.of_traversed? {σ : Type} {e : Execution Native Traversal σ} {id : TableId}
    {visitor : Value} (h : e.traversed? = some (id, visitor)) :
    (∃ origin, e.phase = .entering (.builtin .foreach) origin) ∧
      e.machine.local? 1 = .ok (.table id) ∧ e.machine.local? 2 = .ok visitor := by
  unfold traversed? at h
  split at h
  · rename_i origin _ _ hphase htable hvisitor
    cases h
    exact ⟨⟨origin, hphase⟩, htable, hvisitor⟩
  · cases h

/-- The script `t = {2: 20, 1: 10}; foreach(t, f)`, whose visitor `f` removes the key 2 and adds the
key 3. -/
def Files.reshaping : Files := fun path =>
  if path = "script" then
    .ok [0x48, 0x49, 0x56, 0x45, 1, 2, 0, 7, 0, 0x66, 0x6f, 0x72, 0x65, 0x61, 0x63, 0x68,
      1, 0, 0x74, 71, 0, 0, 0, 7, 13, 1, 0, 12, 1, 0, 3, 2, 0, 0, 0, 3, 20, 0, 0, 0, 10,
      12, 1, 0, 3, 1, 0, 0, 0, 3, 10, 0, 0, 0, 10, 12, 0, 0, 12, 1, 0, 6, 46, 0, 0, 0, 16, 2, 0,
      12, 1, 0, 3, 2, 0, 0, 0, 2, 10, 12, 1, 0, 3, 3, 0, 0, 0, 3, 30, 0, 0, 0, 10, 17]
  else .ok [0x48, 0x44, 0x42, 0x47, 0, 0]

namespace Bridge

/-- A bridge into which the script has been loaded. -/
def reshaping : Bridge Unit :=
  let b : Bridge Unit := .new 1 0 {} ()
  b.attempt ((b.load Files.reshaping "script" "symbols" 7).map Prod.fst)

/-- The bridge is reachable. -/
theorem reachable_reshaping : reshaping.Reachable := by
  have hnew : (Bridge.new 1 0 {} () : Bridge Unit).Reachable := .new 1 0 {} ()
  have hload : (Operation.load Files.reshaping "script" "symbols" 7).after 0
      (.new 1 0 {} ()) = some reshaping := rfl
  exact hnew.after hload

/-- Rows are known when their keys and the keys that are their values are known. -/
theorem rows_eq_of_expectKey {rows : List (TableKey × Value)} {keys : List (TableKey × TableKey)}
    (h : rows.map (fun row => (row.1, row.2.expectKey)) = keys.map fun row => (row.1, .ok row.2)) :
    rows = keys.map fun row => (row.1, row.2.toValue) := by
  induction rows generalizing keys with
  | nil => rw [List.map_eq_nil_iff.mp h.symm, List.map_nil]
  | cons row rows ih =>
    cases keys with
    | nil => cases h
    | cons key keys =>
      obtain ⟨hrow, hrows⟩ := List.cons.inj h
      obtain ⟨hkey, hvalue⟩ := Prod.mk.inj hrow
      rw [List.map_cons, ← ih hrows, ← Value.eq_of_expectKey hvalue, ← hkey]

/-- Whether the native function ends with a value in the step after so many others. -/
def endsWell (sys : NativeSystem Native Traversal Unit) (n : Nat)
    (e : Execution Native Traversal Unit) : Bool :=
  match (e.ahead sys n).moveAt? sys e.waiting.length with
  | some (.finish (.ok _)) => decide (e.AtWork sys n)
  | _ => false

/-- Both rows are visited with their values, although the first call has already removed the second
of them and has added another one. -/
theorem visitsSnapshot_reshaping : reshaping.Reachable ∧ ∃ e id visitor, reshaping.Underway e ∧
    e.machine.local? 1 = .ok (.table id) ∧ e.machine.local? 2 = .ok visitor ∧
    e.VisitsRows (Native.system reshaping.hooks) (e.machine.store.heap.table id) visitor ∧
    ∃ v, e.AtWork (Native.system reshaping.hooks) 22 ∧
      (e.ahead (Native.system reshaping.hooks) 22).moveAt? (Native.system reshaping.hooks)
        e.waiting.length = some (.finish (.ok v)) ∧
      e.callsAt (Native.system reshaping.hooks) e.waiting.length 22 =
        [(visitor, [.int 1, .int 10]), (visitor, [.int 2, .int 20])] ∧
      ((e.ahead (Native.system reshaping.hooks) 22).machine.store.heap.table id).toList =
        [(.int 1, .int 10), (.int 3, .int 30)] := by
  have hcheck : (reshaping.bodyAt? 14).any (fun e => e.traversed?.any fun (id, _) =>
      endsWell (Native.system reshaping.hooks) 22 e && decide (
        (e.machine.store.heap.table id).toList.map (fun row => (row.1, row.2.expectKey)) =
          [(.int 1, .int 10), (.int 2, .int 20)].map (fun row => (row.1, .ok row.2)) ∧
        ((e.ahead (Native.system reshaping.hooks) 22).machine.store.heap.table id).toList.map
            (fun row => (row.1, row.2.expectKey)) =
          [(.int 1, .int 10), (.int 3, .int 30)].map (fun row => (row.1, .ok row.2)))) = true := by
    decide +kernel
  obtain ⟨e, he, hat⟩ := (Option.any_eq_true _ _).mp hcheck
  obtain ⟨⟨id, visitor⟩, htraversed, hat⟩ := (Option.any_eq_true _ _).mp hat
  obtain ⟨hends, hrows⟩ := (Bool.and_eq_true _ _).mp hat
  obtain ⟨hfirst, hlast⟩ := of_decide_eq_true hrows
  obtain ⟨⟨origin, hphase⟩, htable, hvisitor⟩ := Execution.of_traversed? htraversed
  have hunderway := underway_of_bodyAt? he
  have hvisits := reachable_reshaping.visitsSnapshot hunderway hphase htable hvisitor
  unfold endsWell at hends
  split at hends
  · rename_i v hmove
    have hwork := of_decide_eq_true hends
    refine ⟨reachable_reshaping, e, id, visitor, hunderway, htable, hvisitor, hvisits, v, hwork,
      hmove, ?_, rows_eq_of_expectKey hlast⟩
    rw [(hvisits.returns 22 v hwork hmove).2.1, rows_eq_of_expectKey hfirst]
    rfl
  · cases hends

end Bridge

end Swarm
