import Swarm.Bridge.Step
import Swarm.Proofs.Entries
import Swarm.Proofs.Work

/-!
# What a turn enters

A turn enters its machine at the body of the script, at its functions `init` and
`step`, and at the function that hears messages. A watched turn does what the turn
does and tells in addition what it enters and how each visit ends, also if the
turn has no answer.

What has been entered so far tells how far a script has come; an event out of
order leads nowhere. Between two operations this agrees with what the instance
knows about its script.
-/

namespace Swarm

/-- Where a script is entered. -/
inductive EntryPoint where
  /-- The body of the script. -/
  | body
  /-- The function `init`. -/
  | init
  /-- The function that hears messages. -/
  | listener
  /-- The function `step`. -/
  | step
  /-- The function `destroy`. -/
  | destroy
  deriving DecidableEq, Repr

/-- How a visit of a script ends. -/
inductive Visit where
  /-- The function is not defined; the machine has not been entered. -/
  | skipped
  | returned
  | faulted
  /-- It takes more steps of execution than the fuel. -/
  | unfinished
  deriving DecidableEq, Repr

/-- What happens to a script. -/
inductive Event where
  /-- The host asks for a step. -/
  | asked
  | entered (point : EntryPoint) (visit : Visit)
  deriving DecidableEq, Repr

/-- How far a script has come. -/
inductive Progress where
  /-- Nothing has been asked of it. -/
  | loaded
  /-- The first step has begun; the body is next. -/
  | starting
  /-- The body has run; `init` is next. -/
  | started
  /-- It may hear messages; `step` ends the round. -/
  | hearing
  /-- It waits for the next step. -/
  | resting
  /-- It has faulted. -/
  | halted
  /-- It has been unloaded. -/
  | unloaded
  /-- A visit is not over. -/
  | underway
  deriving DecidableEq, Repr

/-- Where a visit leads if the script can go on at `next` after it. -/
def Visit.leadsTo (next : Progress) : Visit → Progress
  | .skipped | .returned => next
  | .faulted => .halted
  | .unfinished => .underway

namespace Progress

/-- The order in which scripts are entered. -/
def next : Progress → Event → Option Progress
  | .loaded, .asked => some .starting
  | .starting, .entered .body visit =>
    if visit = .skipped then none else some (visit.leadsTo .started)
  | .started, .entered .init visit => some (visit.leadsTo .hearing)
  | .hearing, .entered .listener visit =>
    if visit = .skipped then none else some (visit.leadsTo .hearing)
  | .hearing, .entered .step visit => some (visit.leadsTo .resting)
  | .resting, .asked => some .hearing
  | .loaded, .entered .destroy visit | .resting, .entered .destroy visit =>
    some (visit.leadsTo .unloaded)
  | .halted, .asked => some .halted
  | _, _ => none

/-- How far a script has come after further events; there is no answer if they are out of order. -/
def after (p : Progress) (events : List Event) : Option Progress := events.foldlM next p

variable {p p' : Progress} {events : List Event}

/-- Events one after the other are followed one after the other. -/
theorem after_append (h : p.after events = some p') (more : List Event) :
    p.after (events ++ more) = p'.after more := by
  unfold after at *
  rw [List.foldlM_append, h]
  rfl

/-- The first event is followed first. -/
theorem after_cons {event : Event} (h : p.next event = some p') (more : List Event) :
    p.after (event :: more) = p'.after more := by
  unfold after
  rw [List.foldlM_cons, h]
  rfl

end Progress

/-- How the visit behind an answer ended. -/
def Visit.of {σ α : Type} : Option (Ending Native σ α) → Visit
  | none => .unfinished
  | some ⟨.ok _, _, _⟩ => .returned
  | some ⟨.error _, _, _⟩ => .faulted

namespace Machine

variable {σ α : Type} (hooks : HookTable σ) (fuel : Nat) (m : Machine Native) (w : World σ)

/-- What running the body enters. -/
def bodyEvents : List Event :=
  if m.isReady then
    [.entered .body (.of (m.executeScript (Native.system hooks) fuel w))]
  else []

/-- What calling the global function of the name enters. -/
def globalEvents (point : EntryPoint) (name : String) : List Event :=
  if m.isReady then
    if (m.store.global (Utf8.encode name)).isNil then [.entered point .skipped]
    else [.entered point (.of (m.callGlobal (Native.system hooks) fuel name [] w))]
  else []

/-- What hearing messages in at most `rounds` rounds enters. -/
def hearingEvents (m : Machine Native) (w : World σ) : Nat → List Event
  | 0 => []
  | rounds + 1 =>
    match m.nextDelivery w with
    | (none, _, _) => []
    | (some (listener, arguments), m, w) =>
      let call := m.callValue (Native.system hooks) fuel listener arguments w
      .entered .listener (.of call) ::
        match call with
        | some ⟨.ok _, m, w⟩ => hearingEvents m w rounds
        | _ => []

/-- What hearing the messages that wait enters. -/
def inboundEvents : List Event := if m.isReady then hearingEvents hooks fuel m w fuel else []

end Machine

/-- Work on one machine that tells what it enters. -/
structure Watched (σ α : Type) where
  work : Turn σ α
  events : Instance × World σ → List Event

namespace Watched

variable {σ α β : Type}

/-- After a success the second work is watched as well. -/
instance : Monad (Watched σ) where
  pure a := ⟨pure a, fun _ => []⟩
  bind watched next :=
    ⟨watched.work >>= fun a => (next a).work, fun s =>
      watched.events s ++
        match watched.work s with
        | some (.ok a, s) => (next a).events s
        | _ => []⟩

/-- What the second work enters comes behind what the first one enters. -/
theorem events_bind (watched : Watched σ α) (next : α → Watched σ β) (s : Instance × World σ) :
    (watched >>= next).events s = watched.events s ++
      match watched.work s with
      | some (.ok a, s) => (next a).events s
      | _ => [] := rfl

/-- Work that enters nothing. -/
def silent (work : Turn σ α) : Watched σ α := ⟨work, fun _ => []⟩

/-- Enter the machine. -/
def enter (f : Machine Native → World σ → Option (Ending Native σ α))
    (events : Machine Native → World σ → List Event) : Watched σ α :=
  ⟨Turn.enter f, fun (i, w) => events i.machine w⟩

/-- Call a function of the script. -/
def callGlobal (hooks : HookTable σ) (fuel : Nat) (point : EntryPoint) (name : String) :
    Watched σ Value :=
  enter (Machine.callGlobal (Native.system hooks) fuel name [])
    fun m w => m.globalEvents hooks fuel w point name

/-- Run the body of the script and its function `init`. -/
def begin (hooks : HookTable σ) (fuel : Nat) : Watched σ Unit := do
  silent (Turn.update fun i => { i with stepped := true })
  enter (Machine.executeScript (Native.system hooks) fuel) (Machine.bodyEvents hooks fuel)
  let _ ← callGlobal hooks fuel .init "init"
  silent (Turn.update fun i => { i with state := .stepped })
  silent (Turn.report fun i => s!"{i.handle.text}: initialized")

/-- Hear the messages that wait and call the function `step`. -/
def round (hooks : HookTable σ) (fuel : Nat) : Watched σ Unit := do
  let _ ← enter (Machine.processInbound (Native.system hooks) fuel)
    (Machine.inboundEvents hooks fuel)
  let _ ← callGlobal hooks fuel .step "step"
  silent Turn.releaseStrings

/-- One turn of the script. -/
def turn (hooks : HookTable σ) (fuel : Nat) : Watched σ Unit := do
  if !(← silent get).1.stepped then begin hooks fuel
  round hooks fuel

/-- A watched turn does what the turn does. -/
theorem work_turn (hooks : HookTable σ) (fuel : Nat) :
    (turn hooks fuel).work = Instance.turn hooks fuel := by
  funext s
  change (if !s.1.stepped then begin hooks fuel >>= fun _ => round hooks fuel
      else round hooks fuel : Watched σ Unit).work s =
    (if !s.1.stepped then Instance.begin hooks fuel >>= fun _ => (round hooks fuel).work
      else (round hooks fuel).work : Turn σ Unit) s
  split <;> rfl

/-- Begun with the given progress, what is entered is in order. The work ends as `ends` says of the
progress after it if it succeeds, and halted as `fails` says if it fails. -/
def Goes (watched : Watched σ α) (p : Progress) (s : Instance × World σ)
    (ends : α → Progress → Instance × World σ → Prop) (fails : Instance × World σ → Prop) : Prop :=
  ∃ p', p.after (watched.events s) = some p' ∧
    Work.Ends watched.work s (fun a s' => ends a p' s') fun _ s' => p' = .halted ∧ fails s'

variable {watched : Watched σ α} {next : α → Watched σ β} {p : Progress} {s : Instance × World σ}
  {ends ends' : α → Progress → Instance × World σ → Prop}
  {endsNext : β → Progress → Instance × World σ → Prop} {fails : Instance × World σ → Prop}

/-- Work in order may be followed by more such work. -/
theorem Goes.bind (h : watched.Goes p s ends fails)
    (hnext : ∀ a p' s', ends a p' s' → (next a).Goes p' s' endsNext fails) :
    (watched >>= next).Goes p s endsNext fails := by
  obtain ⟨p', hafter, hends⟩ := h
  have hbind (s : Instance × World σ) := Work.bind_eq watched.work (fun a => (next a).work) s
  have hevents := events_bind watched next s
  unfold Goes
  cases hwork : watched.work s with
  | none =>
    rw [hwork, List.append_nil] at hevents
    rw [hevents]
    refine ⟨p', hafter, fun answer hanswer => ?_⟩
    change (watched.work >>= fun a => (next a).work) s = some answer at hanswer
    rw [hbind, hwork] at hanswer
    cases hanswer
  | some answer =>
    rw [hwork] at hevents
    match answer with
    | (.ok a, s') =>
      obtain ⟨p'', hafter', hends'⟩ := hnext a p' s' (hends.ok hwork)
      refine ⟨p'', ?_, fun answer hanswer => hends' answer ?_⟩
      · rw [hevents, Progress.after_append hafter]
        exact hafter'
      · change (watched.work >>= fun a => (next a).work) s = some answer at hanswer
        rwa [hbind, hwork] at hanswer
    | (.error e, s') =>
      rw [List.append_nil] at hevents
      rw [hevents]
      refine ⟨p', hafter, fun answer hanswer => ?_⟩
      change (watched.work >>= fun a => (next a).work) s = some answer at hanswer
      rw [hbind, hwork] at hanswer
      cases hanswer
      exact hends.error hwork

/-- A change of the script enters nothing. -/
theorem goes_modify {f : Instance × World σ → Instance × World σ}
    {ends : PUnit → Progress → Instance × World σ → Prop} (h : ends ⟨⟩ p (f s)) :
    (silent (modify f)).Goes p s ends fails :=
  ⟨p, rfl, Work.ends_modify h⟩

/-- A change that enters nothing leaves the progress as it is. -/
theorem goes_modify_bind {f : Instance × World σ → Instance × World σ}
    {next : PUnit → Watched σ β} (h : (next ⟨⟩).Goes p (f s) endsNext fails) :
    (silent (modify f) >>= next).Goes p s endsNext fails := h

/-- Looking at the script enters nothing. -/
theorem goes_get_bind {next : Instance × World σ → Watched σ β}
    (h : (next s).Goes p s endsNext fails) : (silent get >>= next).Goes p s endsNext fails := h

end Watched

namespace Instance

/-- Only the machine is different, and how far the script has come. -/
structure SameScript (i i' : Instance) : Prop where
  handle : i'.handle = i.handle
  script : i'.script = i.script
  debug : i'.debug = i.debug

/-- A script that stays the same twice stays the same. -/
theorem SameScript.trans {i i' i'' : Instance} (h : i.SameScript i') (h' : i'.SameScript i'') :
    i.SameScript i'' :=
  ⟨h'.handle.trans h.handle, h'.script.trans h.script, h'.debug.trans h.debug⟩

/-- The turn of the first instance has come to the second one, which can go on. -/
structure GoesOn (i i' : Instance) : Prop where
  same : i.SameScript i'
  stepped : i'.stepped = true
  rest : i'.machine.AtRest

/-- The turn of the first instance has come to the second one, which has faulted. -/
structure Falls (i i' : Instance) : Prop where
  same : i.SameScript i'
  stepped : i'.stepped = true
  faulted : i'.machine.isReady = false

end Instance

section Visits

variable {σ α : Type} {hooks : HookTable σ} {fuel : Nat} {m : Machine Native} {w : World σ}
  {i i' : Instance} {p next : Progress}

/-- Entering a machine with the given progress is in order. It leads to `next` and a machine at
rest, or to a halt and a fault. -/
def Machine.Enters (f : Machine Native → World σ → Option (Ending Native σ α))
    (events : Machine Native → World σ → List Event) (p next : Progress) (m : Machine Native)
    (w : World σ) : Prop :=
  ∃ p', p.after (events m w) = some p' ∧ ∀ ending, f m w = some ending → ending.Settles ∧
    p' = (Visit.of (some ending)).leadsTo next

/-- An entry of a machine at rest that is told as one visit. -/
theorem Machine.enters_of_visit {f : Machine Native → World σ → Option (Ending Native σ α)}
    {events : Machine Native → World σ → List Event} {point : EntryPoint}
    (hevents : events m w = [.entered point (.of (f m w))])
    (hnext : ∀ visit, visit ≠ .skipped →
      p.next (.entered point visit) = some (visit.leadsTo next))
    (hsettles : ∀ ending, f m w = some ending → ending.Settles) :
    Machine.Enters f events p next m w := by
  have hvisited : Visit.of (f m w) ≠ .skipped := by
    unfold Visit.of
    split <;> nofun
  refine ⟨(Visit.of (f m w)).leadsTo next, ?_, fun ending hending =>
    ⟨hsettles ending hending, by rw [hending]⟩⟩
  rw [hevents]
  exact Progress.after_cons (hnext _ hvisited) []

/-- Running the body is in order at the start of a turn, and is followed by `init`. -/
theorem Machine.enters_executeScript (hm : m.AtRest) :
    Machine.Enters (Machine.executeScript (Native.system hooks) fuel)
      (Machine.bodyEvents hooks fuel) .starting .started m w := by
  have hevents : m.bodyEvents hooks fuel w =
      [.entered .body (.of (m.executeScript (Native.system hooks) fuel w))] := if_pos hm.1
  exact Machine.enters_of_visit hevents (fun visit hvisit => if_neg hvisit) fun _ hending =>
    Machine.settles_executeScript (Native.system_forwards hooks) hm hending

/-- A function that is not defined is skipped. -/
theorem Machine.callGlobal_of_isNil {name : String} (hready : m.isReady = true)
    (hnil : (m.store.global (Utf8.encode name)).isNil = true) :
    m.callGlobal (Native.system hooks) fuel name [] w =
      some ⟨.ok .nil, m, w.report .debug s!"function '{name}' is not defined, skipping"⟩ := by
  unfold Machine.callGlobal
  rw [if_pos hready]
  exact if_pos hnil

/-- Calling a global function is in order where its entry point is next. -/
theorem Machine.enters_callGlobal {point : EntryPoint} {name : String} (hm : m.AtRest)
    (hnext : ∀ visit, p.next (.entered point visit) = some (visit.leadsTo next)) :
    Machine.Enters (Machine.callGlobal (Native.system hooks) fuel name [])
      (fun m w => m.globalEvents hooks fuel w point name) p next m w := by
  have hsettles (ending : Ending Native σ Value)
      (hending : m.callGlobal (Native.system hooks) fuel name [] w = some ending) :=
    Machine.settles_callGlobal (Native.system_forwards hooks) hm hending
  by_cases hnil : (m.store.global (Utf8.encode name)).isNil = true
  · have hevents : m.globalEvents hooks fuel w point name = [.entered point .skipped] := by
      unfold Machine.globalEvents
      rw [if_pos hm.1, if_pos hnil]
    refine ⟨next, ?_, fun ending hending => ⟨hsettles ending hending, ?_⟩⟩
    · change p.after (m.globalEvents hooks fuel w point name) = some next
      rw [hevents]
      exact Progress.after_cons (hnext .skipped) []
    · rw [Machine.callGlobal_of_isNil hm.1 hnil] at hending
      cases hending
      rfl
  · have hevents : m.globalEvents hooks fuel w point name =
        [.entered point (.of (m.callGlobal (Native.system hooks) fuel name [] w))] := by
      unfold Machine.globalEvents
      rw [if_pos hm.1, if_neg hnil]
    exact Machine.enters_of_visit hevents (fun visit _ => hnext visit) hsettles

/-- Hearing messages is in order while a script hears, and leaves it hearing. -/
theorem Machine.enters_hearMessages (hm : m.AtRest) (heard rounds : Nat) :
    Machine.Enters
      (fun m w => Machine.hearMessages (Native.system hooks) fuel m w heard rounds)
      (fun m w => Machine.hearingEvents hooks fuel m w rounds) .hearing .hearing m w := by
  induction rounds generalizing m w heard with
  | zero =>
    refine ⟨.hearing, rfl, fun ending hending => ?_⟩
    unfold Machine.hearMessages at hending
    cases hending
  | succ rounds ih =>
    unfold Machine.Enters Machine.hearMessages Machine.hearingEvents
    dsimp only
    rcases hnext : m.nextDelivery w with ⟨_ | ⟨listener, arguments⟩, m₁, w₁⟩
    · refine ⟨.hearing, rfl, fun ending hending => ?_⟩
      cases hending
      exact ⟨hm.nextDelivery hnext, rfl⟩
    · dsimp only
      have hlisten (visit : Visit) (hvisit : visit ≠ .skipped) :
          Progress.hearing.next (.entered .listener visit) = some (visit.leadsTo .hearing) :=
        if_neg hvisit
      have hrest := hm.nextDelivery hnext
      cases hcall : m₁.callValue (Native.system hooks) fuel listener arguments w₁ with
      | none =>
        have hafter := Progress.after_cons (hlisten .unfinished nofun) []
        exact ⟨.underway, hafter, fun ending hending => by cases hending⟩
      | some ending =>
        match ending with
        | ⟨.error e, m₂, w₂⟩ =>
          have hafter := Progress.after_cons (hlisten .faulted nofun) []
          refine ⟨.halted, hafter, fun ending hending => ?_⟩
          cases hending
          exact ⟨Machine.settles_callValue (Native.system_forwards hooks) hrest hcall, rfl⟩
        | ⟨.ok v, m₂, w₂⟩ =>
          have hrest₂ := Machine.settles_callValue (Native.system_forwards hooks) hrest hcall
          obtain ⟨p', hafter, hends⟩ := ih hrest₂ (heard + 1)
          exact ⟨p', (Progress.after_cons (hlisten .returned nofun) _).trans hafter, hends⟩

/-- Hearing the messages that wait is in order while a script hears, and leaves it hearing. -/
theorem Machine.enters_processInbound (hm : m.AtRest) :
    Machine.Enters (Machine.processInbound (Native.system hooks) fuel)
      (Machine.inboundEvents hooks fuel) .hearing .hearing m w := by
  unfold Machine.Enters Machine.processInbound Machine.inboundEvents
  simp only [if_pos hm.1]
  exact Machine.enters_hearMessages hm 0 fuel

namespace Watched

/-- Entering the machine of a script that can go on. -/
theorem goes_enter {f : Machine Native → World σ → Option (Ending Native σ α)}
    {events : Machine Native → World σ → List Event} (hi : i.GoesOn i')
    (h : Machine.Enters f events p next i'.machine w) :
    (enter f events).Goes p (i', w)
      (fun _ p' s => p' = next ∧ i.GoesOn s.1 ∧ s.1.state = i'.state) fun s => i.Falls s.1 := by
  obtain ⟨p', hafter, hends⟩ := h
  refine ⟨p', hafter, fun answer hanswer => ?_⟩
  obtain ⟨ending, hending, rfl⟩ := Option.map_eq_some_iff.mp hanswer
  obtain ⟨hsettles, rfl⟩ := hends ending hending
  match ending with
  | ⟨.ok a, m, w'⟩ => exact ⟨rfl, ⟨hi.same.trans ⟨rfl, rfl, rfl⟩, hi.stepped, hsettles⟩, rfl⟩
  | ⟨.error e, m, w'⟩ => exact ⟨rfl, hi.same.trans ⟨rfl, rfl, rfl⟩, hi.stepped, hsettles⟩

/-- The body and `init` are entered once each, in this order. -/
theorem goes_begin (hrest : i.machine.AtRest) :
    (begin hooks fuel).Goes .starting (i, w)
      (fun _ p' s => p' = .hearing ∧ i.GoesOn s.1 ∧ s.1.state = .stepped)
      fun s => i.Falls s.1 := by
  have hstart : i.GoesOn { i with stepped := true } := ⟨⟨rfl, rfl, rfl⟩, rfl, hrest⟩
  unfold begin
  apply goes_modify_bind
  refine (goes_enter hstart (Machine.enters_executeScript hrest)).bind ?_
  rintro _ _ ⟨i₂, w₂⟩ ⟨rfl, h₂, _⟩
  refine (goes_enter h₂ (Machine.enters_callGlobal h₂.rest fun _ => rfl)).bind ?_
  rintro _ _ ⟨i₃, w₃⟩ ⟨rfl, h₃, _⟩
  apply goes_modify_bind
  exact goes_modify ⟨rfl, ⟨h₃.same.trans ⟨rfl, rfl, rfl⟩, h₃.stepped, h₃.rest⟩, rfl⟩

/-- In a round messages are heard first and `step` is called last. -/
theorem goes_round (hi : i.GoesOn i') (hstate : i'.state = .stepped) :
    (round hooks fuel).Goes .hearing (i', w)
      (fun _ p' s => p' = .resting ∧ i.GoesOn s.1 ∧ s.1.state = .stepped)
      fun s => i.Falls s.1 := by
  unfold round
  refine (goes_enter hi (Machine.enters_processInbound hi.rest)).bind ?_
  rintro _ _ ⟨i₁, w₁⟩ ⟨rfl, h₁, hstate₁⟩
  refine (goes_enter h₁ (Machine.enters_callGlobal h₁.rest fun _ => rfl)).bind ?_
  rintro _ _ ⟨i₂, w₂⟩ ⟨rfl, h₂, hstate₂⟩
  refine goes_modify ⟨rfl, ?_, hstate₂.trans (hstate₁.trans hstate)⟩
  exact ⟨h₂.same.trans ⟨rfl, rfl, rfl⟩, h₂.stepped, h₂.rest⟩

/-- A turn enters the body and `init` only if it is the first one; every turn ends with a round. -/
theorem goes_turn (hrest : i.machine.AtRest) (hstate : i.stepped = true → i.state = .stepped) :
    (turn hooks fuel).Goes (if i.stepped then .hearing else .starting) (i, w)
      (fun _ p' s => p' = .resting ∧ i.GoesOn s.1 ∧ s.1.state = .stepped)
      fun s => i.Falls s.1 := by
  unfold turn
  apply goes_get_bind
  dsimp only
  cases hfirst : i.stepped with
  | true => exact goes_round ⟨⟨rfl, rfl, rfl⟩, hfirst, hrest⟩ (hstate hfirst)
  | false =>
    refine (goes_begin hrest).bind ?_
    rintro _ _ ⟨i₁, w₁⟩ ⟨rfl, h₁, hstate₁⟩
    exact goes_round h₁ hstate₁

end Watched

end Visits

namespace Instance

/-- How far a script has come between two operations. -/
def progress (i : Instance) : Progress :=
  if i.machine.isReady then if i.stepped then .resting else .loaded else .halted

/-- What the instance knows about its script between two operations agrees with its machine. -/
structure Consistent (i : Instance) : Prop where
  rest : i.machine.isReady = true → i.machine.AtRest
  stepped : i.machine.isReady = false → i.stepped = true
  state : i.state =
    if i.machine.isReady then if i.stepped then .stepped else .unstepped else .faulted

/-- How a step that has come to the instance has ended. -/
def outcome (i : Instance) : StepOutcome :=
  if i.machine.isReady then .ready else .faulted i.diagnosis

variable {σ : Type} {i i' : Instance}

/-- What a step of the script enters. -/
def stepEvents (i : Instance) (hooks : HookTable σ) (fuel : Nat) (w : World σ) : List Event :=
  .asked :: if i.machine.isReady then (Watched.turn hooks fuel).events (i, w) else []

/-- A script that can go on after a turn. -/
theorem GoesOn.consistent (h : i.GoesOn i') (hstate : i'.state = .stepped) : i'.Consistent where
  rest _ := h.rest
  stepped _ := h.stepped
  state := by simp [hstate, h.rest.1, h.stepped]

/-- A script that has faulted in a turn. -/
theorem Falls.consistent (h : i.Falls i') : { i' with state := .faulted }.Consistent where
  rest hready := absurd hready (by simp [h.faulted])
  stepped _ := h.stepped
  state := by simp [h.faulted]

/-- A script that has faulted before is not entered. -/
theorem step_of_faulted (hfaulted : i.machine.isReady = false) (hooks : HookTable σ) (fuel : Nat)
    (w : World σ) : i.step hooks fuel w = some (.faulted i.diagnosis, { i with state := .faulted },
      w.report .debug s!"{i.handle.text}: not ready, step skipped") := by
  unfold step
  rw [if_neg (by simp [hfaulted])]
  rfl

/-- A step enters the script in order, and what the instance knows agrees with its machine again. -/
theorem Consistent.step (hi : i.Consistent) (hooks : HookTable σ) (fuel : Nat) (w : World σ) :
    ∃ p', i.progress.after (i.stepEvents hooks fuel w) = some p' ∧
      ∀ outcome i' w', i.step hooks fuel w = some (outcome, i', w') →
        p' = i'.progress ∧ i.SameScript i' ∧ i'.Consistent ∧ outcome = i'.outcome := by
  cases hready : i.machine.isReady with
  | false =>
    have hprogress : i.progress = .halted := by simp [progress, hready]
    have hevents : i.stepEvents hooks fuel w = [.asked] := by simp [stepEvents, hready]
    refine ⟨.halted, by rw [hprogress, hevents]; rfl, fun outcome i' w' hstep => ?_⟩
    rw [step_of_faulted hready] at hstep
    cases hstep
    have houtcome : outcome { i with state := .faulted } = .faulted i.diagnosis := by
      simp only [outcome, hready]
      rfl
    exact ⟨hprogress.symm, ⟨rfl, rfl, rfl⟩, ⟨hi.rest, hi.stepped, by simp [hready]⟩, houtcome.symm⟩
  | true =>
    have hasked : i.progress.next .asked = some (if i.stepped then .hearing else .starting) := by
      unfold progress
      rw [if_pos hready]
      split <;> rfl
    have hevents : i.stepEvents hooks fuel w =
        .asked :: (Watched.turn hooks fuel).events (i, w) := by simp [stepEvents, hready]
    have hstate (hstepped : i.stepped = true) : i.state = .stepped := by
      simpa [hready, hstepped] using hi.state
    have hturn : (Watched.turn hooks fuel).Goes _ (i, w) _ _ :=
      Watched.goes_turn (hi.rest hready) hstate
    obtain ⟨p', hafter, hends⟩ := hturn
    refine ⟨p', by rw [hevents, Progress.after_cons hasked, hafter], fun outcome i' w' hstep => ?_⟩
    unfold Instance.step at hstep
    rw [if_pos hready, ← Watched.work_turn] at hstep
    obtain ⟨⟨result, i₁, w₁⟩, hwork, heq⟩ := Option.map_eq_some_iff.mp hstep
    match result with
    | .ok () =>
      obtain ⟨rfl, hgoes, hstate'⟩ := hends.ok hwork
      cases heq
      have hready' : i'.machine.isReady = true := hgoes.rest.1
      have hstepped' : i'.stepped = true := hgoes.stepped
      refine ⟨?_, hgoes.same, hgoes.consistent hstate', ?_⟩
      · simp [progress, hready', hstepped']
      · simp [outcome, hready']
    | .error e =>
      obtain ⟨rfl, hfalls⟩ := hends.error hwork
      cases heq
      have hfaulted : i₁.machine.isReady = false := hfalls.faulted
      refine ⟨?_, hfalls.same.trans ⟨rfl, rfl, rfl⟩, hfalls.consistent, ?_⟩
      · simp [progress, hfaulted]
      · simp [outcome, hfaulted]

end Instance

end Swarm
