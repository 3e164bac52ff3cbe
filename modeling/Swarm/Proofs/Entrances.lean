import Swarm.Proofs.Operations
import Swarm.Proofs.Starts

/-!
# Entrances and what happens behind them

A script is entered when its machine begins to run the body, to call one of the
functions of the script, or to have a message heard. What is watched of a turn and
what is told of it belong together: behind every event that is watched lies one
stretch of the moments that are told, from the start of the body or of the called
function, step by step, to where the outermost activation has been left. No moment
lies outside of these stretches but that a message is dropped.
-/

namespace Swarm

variable {σ α β : Type}

/-- The global variable of the function that is entered, for the points that have one. -/
def EntryPoint.name? : EntryPoint → Option String
  | .init => some "init"
  | .step => some "step"
  | .destroy => some "destroy"
  | .body | .listener => none

/-- What happens when a visit has ended: if a message was heard, this is told. -/
def EntryPoint.closing (result : Except RuntimeError Value) : EntryPoint → List (Moment σ)
  | .listener => [.heard result]
  | .body | .init | .step | .destroy => []

/-- How a visit that has ended with the result has ended. -/
def Visit.ofResult : Except RuntimeError α → Visit
  | .ok _ => .returned
  | .error _ => .faulted

/-- A visit with an answer has ended as the answer says. -/
theorem Visit.of_some (ending : Ending Native σ α) :
    Visit.of (some ending) = .ofResult ending.result := by
  match ending with
  | ⟨.ok _, _, _⟩ | ⟨.error _, _, _⟩ => rfl

namespace Execution

variable {hooks : HookTable σ} {e : Execution Native Traversal σ}

/-- The execution has left its outermost activation with the result. -/
structure Over (e : Execution Native Traversal σ) (result : Except RuntimeError Value) : Prop where
  phase : e.phase = .leaving result
  waiting : e.waiting = []

/-- Steps lead from the one execution to the other; the moments are those of the steps. -/
inductive Stretch (hooks : HookTable σ) : Execution Native Traversal σ → List (Moment σ) →
    Execution Native Traversal σ → Prop where
  | nil (e : Execution Native Traversal σ) : Stretch hooks e [] e
  | cons {e t : Execution Native Traversal σ} {later : List (Moment σ)}
      (hrest : Stretch hooks (e.step (Native.system hooks)) later t) :
      Stretch hooks e (.works e (e.step (Native.system hooks)) :: later) t

/-- The trail of a run leads to the end of the run, or to where the fuel was used up. -/
theorem exists_stretch (hooks : HookTable σ) (fuel : Nat) (e : Execution Native Traversal σ) :
    ∃ t, e.Stretch hooks (e.trail hooks fuel) t ∧
      (∀ ending, e.run (Native.system hooks) fuel = some ending →
        t.Over ending.result ∧ t.machine = ending.machine) ∧
      (e.run (Native.system hooks) fuel = none → ∀ result, ¬t.Over result) := by
  fun_induction Execution.trail hooks fuel e with
  | case1 fuel m w activation result =>
    have hrun : Execution.run (Native.system hooks) fuel
        ⟨m, w, activation, .leaving result, []⟩ = some ⟨result, m, w⟩ := by cases fuel <;> rfl
    rw [hrun]
    refine ⟨_, .nil _, fun ending heq => ?_, fun heq => by cases heq⟩
    cases heq
    exact ⟨⟨rfl, rfl⟩, rfl⟩
  | case2 e he =>
    refine ⟨e, .nil e, fun ending hrun => ?_, fun _ result => ?_⟩
    · unfold Execution.run at hrun
      split at hrun
      · exact (he _ _ _ _ rfl).elim
      · cases hrun
      · contradiction
    · obtain ⟨m, w, activation, phase, waiting⟩ := e
      rintro ⟨rfl, rfl⟩
      exact he _ _ _ _ rfl
  | case3 fuel e he e' ih =>
    obtain ⟨t, hstretch, hends⟩ := ih
    have hrun : e.run (Native.system hooks) (fuel + 1) = e'.run (Native.system hooks) fuel := by
      rw [Execution.run]
      exact he
    rw [hrun]
    exact ⟨t, .cons hstretch, hends⟩

end Execution

namespace Machine

/-- The machine begins to be entered at the point, after the given moments. -/
inductive Begins (m : Machine Native) : EntryPoint → List (Moment σ) →
    Execution Native Traversal σ → Prop where
  /-- The body is entered in a frame of its own. -/
  | body {w : World σ} (hready : m.isReady = true)
      (hstarts : (Execution.startScript m w [] : Execution Native Traversal σ).StartsBody) :
      Begins m .body [] (.startScript m w [])
  /-- The function is called without arguments. -/
  | function {point : EntryPoint} {name : String} {w : World σ}
      {e : Execution Native Traversal σ} (hname : point.name? = some name)
      (hcall : m.BeginsCall w name e)
      (hstarts : e.StartsCall (m.store.global (Utf8.encode name)) [] ∨
        e.Refused m (m.store.global (Utf8.encode name)) []) : Begins m point [] e
  /-- The oldest message is taken and presented to the listener. -/
  | listener {m' : Machine Native} {message : Message} {rest : List Message} {listener : Value}
      {arguments : List Value} {w : World σ} (hready : m.isReady = true)
      (hinbound : m.store.mailbox.inbound = message :: rest)
      (hlistener : m.store.listener = some listener)
      (hpresent : (m.leaveMessages rest).present message = (m', arguments))
      (hstarts : (Execution.startCall m' w [] listener arguments :
          Execution Native Traversal σ).StartsCall listener arguments ∨
        (Execution.startCall m' w [] listener arguments :
          Execution Native Traversal σ).Refused m' listener arguments) :
      Begins m .listener [.takes message (some listener), .hears m' listener arguments]
        (.startCall m' w [] listener arguments)

/-- The events and the moments are what is entered in the machine and what happens in it. The
answer is the machine at the end; there is none if the fuel has been used up before. -/
inductive Entered (hooks : HookTable σ) : Machine Native → List Event → List (Moment σ) →
    Option (Machine Native) → Prop where
  /-- Nothing more is entered. -/
  | rest (m : Machine Native) : Entered hooks m [] [] (some m)
  /-- The fuel for the messages is used up. -/
  | stops (m : Machine Native) : Entered hooks m [] [] none
  /-- A turn begins. -/
  | asked {m : Machine Native} {events : List Event} {moments : List (Moment σ)}
      {answer : Option (Machine Native)} (hlater : Entered hooks m events moments answer) :
      Entered hooks m (.asked :: events) moments answer
  /-- Strings that are not needed any more are released. -/
  | released {m : Machine Native} {events : List Event} {moments : List (Moment σ)}
      {answer : Option (Machine Native)} (hlater : Entered hooks m.released events moments answer) :
      Entered hooks m events moments answer
  /-- A message that nobody hears is dropped. -/
  | drops {m : Machine Native} {message : Message} {rest : List Message} {events : List Event}
      {moments : List (Moment σ)} {answer : Option (Machine Native)}
      (hinbound : m.store.mailbox.inbound = message :: rest) (hlistener : m.store.listener = none)
      (hlater : Entered hooks (m.leaveMessages rest) events moments answer) :
      Entered hooks m events (.takes message none :: moments) answer
  /-- A function that is not defined is skipped, and nothing happens. -/
  | skips {m : Machine Native} {point : EntryPoint} {name : String} {events : List Event}
      {moments : List (Moment σ)} {answer : Option (Machine Native)} (hready : m.isReady = true)
      (hname : point.name? = some name)
      (hnil : (m.store.global (Utf8.encode name)).isNil = true)
      (hlater : Entered hooks m events moments answer) :
      Entered hooks m (.entered point .skipped :: events) moments answer
  /-- The visit goes on step by step until the outermost activation has been left. -/
  | visits {m : Machine Native} {point : EntryPoint} {now work : List (Moment σ)}
      {e t : Execution Native Traversal σ} {result : Except RuntimeError Value}
      {events : List Event} {moments : List (Moment σ)} {answer : Option (Machine Native)}
      (hbegins : m.Begins point now e) (hwork : e.Stretch hooks work t) (hover : t.Over result)
      (hlater : Entered hooks t.machine events moments answer) :
      Entered hooks m (.entered point (.ofResult result) :: events)
        (now ++ work ++ point.closing result ++ moments) answer
  /-- The fuel is used up before the visit has ended. -/
  | unfinished {m : Machine Native} {point : EntryPoint} {now work : List (Moment σ)}
      {e t : Execution Native Traversal σ} (hbegins : m.Begins point now e)
      (hwork : e.Stretch hooks work t) (hgoing : ∀ result, ¬t.Over result) :
      Entered hooks m [.entered point .unfinished] (now ++ work) none

variable {hooks : HookTable σ} {fuel : Nat} {m m' : Machine Native} {w : World σ}
  {point : EntryPoint} {events more : List Event} {now moments work : List (Moment σ)}
  {e : Execution Native Traversal σ} {answer : Option (Machine Native)}

/-- What is entered later comes behind what has been entered. -/
theorem Entered.append (h : m.Entered hooks events moments (some m'))
    (hmore : m'.Entered hooks more work answer) :
    m.Entered hooks (events ++ more) (moments ++ work) answer := by
  generalize hend : some m' = first at h
  induction h with
  | rest m =>
    cases hend
    exact hmore
  | stops => cases hend
  | unfinished => cases hend
  | asked _ ih => exact .asked (ih hend)
  | released _ ih => exact .released (ih hend)
  | drops hinbound hlistener _ ih => exact .drops hinbound hlistener (ih hend)
  | skips hready hname hnil _ ih => exact .skips hready hname hnil (ih hend)
  | visits hbegins hwork hover _ ih =>
    rw [List.append_assoc]
    exact .visits hbegins hwork hover (ih hend)

/-- A visit whose run has an answer. -/
theorem Begins.visited (hbegins : m.Begins point now e) {ending : Ending Native σ Value}
    (hrun : e.run (Native.system hooks) fuel = some ending)
    (hlater : ending.machine.Entered hooks events moments answer) :
    m.Entered hooks (.entered point (.ofResult ending.result) :: events)
      (now ++ e.trail hooks fuel ++ point.closing ending.result ++ moments) answer := by
  obtain ⟨t, hstretch, hends, _⟩ := e.exists_stretch hooks fuel
  obtain ⟨hover, hmachine⟩ := hends ending hrun
  rw [← hmachine] at hlater
  exact .visits hbegins hstretch hover hlater

/-- A visit whose run has none. -/
theorem Begins.unfinished (hbegins : m.Begins point now e)
    (hrun : e.run (Native.system hooks) fuel = none) :
    m.Entered hooks [.entered point .unfinished] (now ++ e.trail hooks fuel) none := by
  obtain ⟨t, hstretch, _, hgoing⟩ := e.exists_stretch hooks fuel
  exact .unfinished hbegins hstretch (hgoing hrun)

/-- A visit of the body or of a function in a global variable, and nothing else. -/
theorem Begins.entered (hbegins : m.Begins point [] e) (hooks : HookTable σ) (fuel : Nat)
    (hclosing : ∀ result, point.closing (σ := σ) result = []) :
    m.Entered hooks [.entered point (.of (e.run (Native.system hooks) fuel))]
      (e.trail hooks fuel) ((e.run (Native.system hooks) fuel).map Ending.machine) := by
  cases hrun : e.run (Native.system hooks) fuel with
  | none => exact hbegins.unfinished hrun
  | some ending =>
    have hvisited := hbegins.visited hrun (.rest ending.machine)
    rw [hclosing, List.append_nil, List.append_nil] at hvisited
    rw [Visit.of_some]
    exact hvisited

/-- The body is entered at its first instruction. -/
theorem entered_tellScript (hready : m.isReady = true) (w : World σ) :
    m.Entered hooks (m.bodyEvents hooks fuel w) (m.tellScript hooks fuel w).2
      ((m.executeScript (Native.system hooks) fuel w).map Ending.machine) := by
  have hbegins : m.Begins .body [] (.startScript m w []) :=
    .body hready (Execution.startsBody_startScript hready w [])
  have hentered := hbegins.entered hooks fuel fun _ => rfl
  have hvisit : Visit.of (m.executeScript (Native.system hooks) fuel w) =
      .of ((Execution.startScript m w []).run (Native.system hooks) fuel) := by
    unfold executeScript
    cases (Execution.startScript m w []).run (Native.system hooks) fuel with
    | none => rfl
    | some ending =>
      obtain ⟨result, m', w'⟩ := ending
      cases result <;> rfl
  have hmachine : (m.executeScript (Native.system hooks) fuel w).map Ending.machine =
      ((Execution.startScript m w []).run (Native.system hooks) fuel).map Ending.machine := by
    unfold executeScript
    rw [Option.map_map]
    rfl
  unfold bodyEvents
  rw [if_pos hready, hvisit, hmachine]
  exact hentered

/-- A function in a global variable is skipped or entered; in a machine that has faulted nothing
happens. -/
theorem entered_tellGlobal {name : String} (hname : point.name? = some name)
    (hooks : HookTable σ) (fuel : Nat) (m : Machine Native) (w : World σ) :
    m.Entered hooks (m.globalEvents hooks fuel w point name) (m.tellGlobal hooks fuel name w).2
      ((m.callGlobal (Native.system hooks) fuel name [] w).map Ending.machine) := by
  unfold globalEvents tellGlobal callGlobal
  by_cases hready : m.isReady = true
  · rw [if_pos hready, if_pos hready, if_pos hready]
    by_cases hnil : (m.store.global (Utf8.encode name)).isNil = true
    · simp only [if_pos hnil]
      exact .skips hready hname hnil (.rest m)
    · have hcall : m.BeginsCall w name
          (.startCall m w [] (m.store.global (Utf8.encode name)) []) :=
        ⟨hready, by simpa using hnil, rfl⟩
      have hclosing (result : Except RuntimeError Value) :
          point.closing (σ := σ) result = [] := by
        cases point <;> first | rfl | cases hname
      simp only [if_neg hnil]
      exact (Begins.function hname hcall
        (Execution.startsCall_or_refused hready w [] _ [])).entered hooks fuel hclosing
  · rw [if_neg hready, if_neg hready, if_neg hready]
    exact .rest m

/-- A round in which a message is heard. -/
theorem hearingEvents_of_listener {message : Message} {rest : List Message} {listener : Value}
    {arguments : List Value} (hinbound : m.store.mailbox.inbound = message :: rest)
    (hlistener : m.store.listener = some listener)
    (hpresent : (m.leaveMessages rest).present message = (m', arguments)) (w : World σ)
    (rounds : Nat) :
    m.hearingEvents hooks fuel w (rounds + 1) =
      .entered .listener (.of (m'.callValue (Native.system hooks) fuel listener arguments w)) ::
        match m'.callValue (Native.system hooks) fuel listener arguments w with
        | some ⟨.ok _, m, w⟩ => m.hearingEvents hooks fuel w rounds
        | _ => [] := by
  have hnext := nextDelivery_of_listener hinbound hlistener w
  rw [hpresent] at hnext
  rewrite [hearingEvents, hnext]
  rfl

/-- The visit of the listener with the oldest message. -/
theorem begins_listener {message : Message} {rest : List Message} {listener : Value}
    {arguments : List Value} (hready : m.isReady = true)
    (hinbound : m.store.mailbox.inbound = message :: rest)
    (hlistener : m.store.listener = some listener)
    (hpresent : (m.leaveMessages rest).present message = (m', arguments)) (w : World σ) :
    m.Begins .listener [.takes message (some listener), .hears m' listener arguments]
      (.startCall m' w [] listener arguments) := by
  have hready' : m'.isReady = true := by
    cases hpresent
    exact hready
  exact .listener hready hinbound hlistener hpresent
    (Execution.startsCall_or_refused hready' w [] listener arguments)

/-- Every message is taken, and heard by the listener of that moment or dropped. -/
theorem entered_tellMessages (hm : m.AtRest) (w : World σ) (heard rounds : Nat) :
    m.Entered hooks (m.hearingEvents hooks fuel w rounds)
      (m.tellMessages hooks fuel w heard rounds).2
      ((m.hearMessages (Native.system hooks) fuel w heard rounds).map Ending.machine) := by
  rw [← tellMessages_fst]
  -- Every call that succeeds leaves the machine at rest for the next message.
  fun_induction tellMessages hooks fuel m w heard rounds with
  | case1 m w heard => exact .stops m
  | case2 m w heard rounds hinbound =>
    unfold hearingEvents
    rw [nextDelivery_of_nil hinbound]
    exact .rest m
  | case3 m w heard rounds message rest hinbound hlistener text answer moments hrest ih =>
    have hentered := ih hm
    rw [hrest] at hentered
    have hevents : m.hearingEvents hooks fuel w (rounds + 1) =
        (m.leaveMessages rest).hearingEvents hooks fuel (w.report .debug text) (rounds + 1) := by
      rw [hearingEvents, hearingEvents, nextDelivery_of_listener_none hinbound hlistener]
    rw [hevents]
    exact .drops hinbound hlistener hentered
  | case4 m w heard rounds message rest hinbound listener hlistener m' arguments hpresent work
      moments htell =>
    obtain ⟨hrun, rfl⟩ := Prod.mk.inj htell
    rw [hearingEvents_of_listener hinbound hlistener hpresent, show callValue .. = none from hrun]
    exact (begins_listener hm.1 hinbound hlistener hpresent w).unfinished hrun
  | case5 m w heard rounds message rest hinbound listener hlistener m' arguments hpresent work
      moments error m₁ w₁ htell =>
    obtain ⟨hrun, rfl⟩ := Prod.mk.inj htell
    rw [hearingEvents_of_listener hinbound hlistener hpresent, show callValue .. = some _ from hrun]
    have hvisited := (begins_listener hm.1 hinbound hlistener hpresent w).visited hrun (.rest m₁)
    rw [List.append_nil] at hvisited
    exact hvisited
  | case6 m w heard rounds message rest hinbound listener hlistener m' arguments hpresent work
      moments value m₁ w₁ answer more hmore htell ih =>
    obtain ⟨hrun, rfl⟩ := Prod.mk.inj htell
    have hm' : m'.AtRest := by
      cases hpresent
      exact hm
    have hm₁ : m₁.AtRest := settles_callValue (Native.system_forwards hooks) hm' hrun
    have hlater := ih hm₁
    rw [hmore] at hlater
    rw [hearingEvents_of_listener hinbound hlistener hpresent, show callValue .. = some _ from hrun]
    have hvisited := (begins_listener hm.1 hinbound hlistener hpresent w).visited hrun hlater
    rw [List.append_assoc] at hvisited
    exact hvisited

/-- The messages that wait are heard in a machine at rest. -/
theorem entered_tellInbound (hm : m.AtRest) (w : World σ) :
    m.Entered hooks (m.inboundEvents hooks fuel w) (m.tellInbound hooks fuel w).2
      ((m.processInbound (Native.system hooks) fuel w).map Ending.machine) := by
  unfold inboundEvents tellInbound processInbound
  rw [if_pos hm.1, if_pos hm.1, if_pos hm.1]
  exact entered_tellMessages hm w 0 fuel

end Machine

namespace Watched

variable {hooks : HookTable σ} {fuel : Nat} {watched : Watched σ α} {told : Told σ α}

/-- What is watched of the work and what is told of it belong together if the machine is at rest.
After a success it is at rest again. -/
def Shows (hooks : HookTable σ) (watched : Watched σ α) (told : Told σ α) : Prop :=
  ∀ s, s.1.machine.AtRest → (told s).1 = watched.work s ∧
    s.1.machine.Entered hooks (watched.events s) (told s).2
      ((watched.work s).map fun answer => answer.2.1.machine) ∧
    ∀ a s', watched.work s = some (.ok a, s') → s'.1.machine.AtRest

/-- One work is shown after the other. -/
theorem Shows.bind {next : α → Watched σ β} {next' : α → Told σ β} (h : watched.Shows hooks told)
    (hnext : ∀ a, (next a).Shows hooks (next' a)) :
    (watched >>= next).Shows hooks (told >>= next') := by
  intro s hrest
  obtain ⟨hwork, hentered, hends⟩ := h s hrest
  have hbind : (watched >>= next).work s = _ :=
    Work.bind_eq watched.work (fun a => (next a).work) s
  have hevents := events_bind watched next s
  change (told.andThen next' s).1 = _ ∧ s.1.machine.Entered hooks _ (told.andThen next' s).2 _ ∧ _
  unfold Told.andThen
  rw [← hwork] at hentered hends hbind hevents
  rw [hbind, hevents]
  cases hs : told s with
  | mk answer moments =>
    rw [hs] at hentered hends
    cases answer with
    | none =>
      rw [List.append_nil]
      exact ⟨rfl, hentered, fun _ _ heq => by cases heq⟩
    | some answer =>
      obtain ⟨result, s'⟩ := answer
      cases result with
      | error e =>
        rw [List.append_nil]
        exact ⟨rfl, hentered, fun _ _ heq => by cases heq⟩
      | ok a =>
        -- Only after a success is there more to enter, and then the machine is at rest.
        obtain ⟨hwork', hentered', hends'⟩ := hnext a s' (hends a s' rfl)
        exact ⟨hwork', hentered.append hentered', hends'⟩

/-- A change that leaves the machine as it is. -/
theorem shows_modify {f : Instance × World σ → Instance × World σ}
    (hf : ∀ s, (f s).1.machine = s.1.machine) :
    (silent (modify f)).Shows hooks (Told.silent (modify f)) := by
  refine fun s hrest => ⟨rfl, ?_, fun a s' heq => ?_⟩
  · change s.1.machine.Entered hooks [] [] (some (f s).1.machine)
    rw [hf]
    exact .rest _
  · cases heq
    rw [hf]
    exact hrest

/-- Releasing strings at the end of a round. -/
theorem shows_releaseStrings :
    (silent Turn.releaseStrings).Shows hooks (Told.silent Turn.releaseStrings) := by
  refine fun s hrest => ⟨rfl, .released (.rest _), fun a s' heq => ?_⟩
  cases heq
  exact hrest

/-- Entering the machine. -/
theorem shows_enter {f : Machine Native → World σ → Telling σ α}
    {g : Machine Native → World σ → Option (Ending Native σ α)}
    {events : Machine Native → World σ → List Event} {p next : Progress}
    (htold : ∀ m w, (f m w).1 = g m w)
    (henters : ∀ (m : Machine Native) w, m.AtRest → Machine.Enters g events p next m w)
    (hentered : ∀ (m : Machine Native) w, m.AtRest →
      m.Entered hooks (events m w) (f m w).2 ((g m w).map Ending.machine)) :
    (enter g events).Shows hooks (Told.enter f) := by
  intro (i, w) hrest
  refine ⟨Told.tells_enter htold (i, w), ?_, fun a s' heq => ?_⟩
  · have hmachine : (((enter g events).work (i, w)).map fun answer => answer.2.1.machine) =
        (g i.machine w).map Ending.machine := by
      change Option.map _ (Option.map _ _) = _
      rw [Option.map_map]
      rfl
    rw [hmachine]
    exact hentered i.machine w hrest
  · obtain ⟨ending, hending, heq⟩ := Option.map_eq_some_iff.mp heq
    obtain ⟨_, _, hends⟩ := henters i.machine w hrest
    have hsettles := (hends ending hending).1
    match ending with
    | ⟨.ok _, _, _⟩ =>
      cases heq
      exact hsettles
    | ⟨.error _, _, _⟩ => cases heq

variable (hooks fuel)

/-- Calling the function in a global variable. -/
theorem shows_callGlobal {point : EntryPoint} {name : String} (p : Progress) {next : Progress}
    (hname : point.name? = some name)
    (hnext : ∀ visit, p.next (.entered point visit) = some (visit.leadsTo next)) :
    (callGlobal hooks fuel point name).Shows hooks
      (Told.enter (Machine.tellGlobal hooks fuel name)) :=
  shows_enter (Machine.tellGlobal_fst hooks fuel name)
    (fun _ _ hm => Machine.enters_callGlobal hm hnext)
    fun m w _ => Machine.entered_tellGlobal hname hooks fuel m w

/-- What the beginning of a first turn enters is what happens in it. -/
theorem shows_begin : (begin hooks fuel).Shows hooks (Told.begin hooks fuel) := by
  have hbody : (enter (Machine.executeScript (Native.system hooks) fuel)
      (Machine.bodyEvents hooks fuel)).Shows hooks (Told.enter (Machine.tellScript hooks fuel)) :=
    shows_enter (Machine.tellScript_fst hooks fuel)
      (fun _ _ hm => Machine.enters_executeScript hm)
      fun _ w hm => Machine.entered_tellScript hm.1 w
  have hinit : (callGlobal hooks fuel .init "init").Shows hooks
      (Told.enter (Machine.tellGlobal hooks fuel "init")) :=
    shows_callGlobal hooks fuel .started rfl fun _ => rfl
  unfold begin Told.begin
  refine Shows.bind (shows_modify ?_) fun _ => hbody.bind fun _ => hinit.bind fun _ =>
    Shows.bind (shows_modify ?_) fun _ => shows_modify ?_
  all_goals exact fun _ => rfl

/-- What a round enters is what happens in it. -/
theorem shows_round : (round hooks fuel).Shows hooks (Told.round hooks fuel) := by
  have hinbound : (enter (Machine.processInbound (Native.system hooks) fuel)
      (Machine.inboundEvents hooks fuel)).Shows hooks
        (Told.enter (Machine.tellInbound hooks fuel)) :=
    shows_enter (Machine.tellInbound_fst hooks fuel)
      (fun _ _ hm => Machine.enters_processInbound hm)
      fun _ w hm => Machine.entered_tellInbound hm w
  have hstep : (callGlobal hooks fuel .step "step").Shows hooks
      (Told.enter (Machine.tellGlobal hooks fuel "step")) :=
    shows_callGlobal hooks fuel .hearing rfl fun _ => rfl
  exact hinbound.bind fun _ => hstep.bind fun _ => shows_releaseStrings

/-- What a turn enters is what happens in it. -/
theorem shows_turn : (turn hooks fuel).Shows hooks (Told.turn hooks fuel) := by
  intro s
  have hwork : (turn hooks fuel).work s =
      (if !s.1.stepped then begin hooks fuel >>= fun _ => round hooks fuel
        else round hooks fuel : Watched σ Unit).work s := rfl
  have hevents : (turn hooks fuel).events s =
      (if !s.1.stepped then begin hooks fuel >>= fun _ => round hooks fuel
        else round hooks fuel : Watched σ Unit).events s := rfl
  rw [hwork, hevents, Told.turn_apply]
  split
  · exact (shows_begin hooks fuel).bind (fun _ => shows_round hooks fuel) s
  · exact shows_round hooks fuel s

end Watched

/-- What a step of the script enters is what happens in it. -/
theorem Instance.Consistent.entered_step {i : Instance} (hi : i.Consistent) (hooks : HookTable σ)
    (fuel : Nat) (w : World σ) :
    i.machine.Entered hooks (i.stepEvents hooks fuel w) (i.stepMoments hooks fuel w)
      ((i.step hooks fuel w).map fun answer => answer.2.1.machine) := by
  unfold stepEvents stepMoments
  cases hready : i.machine.isReady with
  | false =>
    rw [step_of_faulted hready]
    exact .asked (.rest _)
  | true =>
    obtain ⟨_, hentered, _⟩ := Watched.shows_turn hooks fuel (i, w) (hi.rest hready)
    have hanswer : (i.step hooks fuel w).map (fun answer => answer.2.1.machine) =
        ((Watched.turn hooks fuel).work (i, w)).map fun answer => answer.2.1.machine := by
      unfold Instance.step
      rw [if_pos hready, Watched.work_turn, Option.map_map]
      congr 1
      funext ⟨result, _, _⟩
      cases result <;> rfl
    rw [hanswer]
    exact .asked hentered

end Swarm
