import Swarm.CommandLine.Session
import Swarm.Proofs.Progress

/-!
# Leaving the loop early

A session leaves its loop after a tick that has stepped no agent. Every machine of
a session belongs to an agent, so all machines have stopped by then, and the ticks
that are left would only have reported. Scripts read the clock of the host, which
may show anything at every reading, but no script is left that could ask.
-/

namespace Swarm

namespace Session

variable {s s' s₁ s₂ : Session} {fuel number count : Nat} {readings : Nat → Float}

section Loop

/-- Ticks from a number on, whether or not the session would go on after them. -/
def allTicks (s : Session) (fuel : Nat) (number : Nat) : Nat → Option Session
  | 0 => some s
  | count + 1 => do
    let (_, s) ← s.tick fuel number
    s.allTicks fuel (number + 1) count

/-- A whole session that does not leave its loop early. -/
def runAll (o : Options) (files : Files) (fuel : Nat) (readings : Nat → Float) :
    Option (UInt32 × Session) := do
  match ← start o files fuel readings with
  | (some code, s) => return (code, s)
  | (none, s) => (← s.allTicks fuel 0 o.ticks.toNat).finish fuel

/-- What is left of a session without its journal. -/
def essence (s : Session) : Session :=
  let world := { s.bridge.world with journal := #[] }
  { s with bridge := { s.bridge with world } }

/-- Ticks of the group one after the other, all of which succeed, with what each of them has
counted. Between two of them the session reports something. -/
inductive Rounds (fuel : Nat) : Session → List TickReport → Session → Prop where
  | rest (s : Session) : Rounds fuel s [] s
  | tick {s s' : Session} {ending : TickEnding Clock} {report : TickReport}
      {reports : List TickReport} (journal : Array LogEntry)
      (htick : s.hub.tick fuel s.bridge = some ending) (hresult : ending.result = .ok report)
      (hrest : Rounds fuel
        ⟨ending.hub, { ending.bridge with world := { ending.bridge.world with journal } }⟩
        reports s') :
      Rounds fuel s (report :: reports) s'

/-- The loop of a session ends, and the ticks up to the given number would have come to another
end. -/
structure Ends (fuel count : Nat) (s s₁ s₂ : Session) (reports idle : List TickReport) : Prop where
  /-- The loop ticks the group. -/
  loop : s.Rounds fuel reports s₁
  /-- The ticks that are left go on from there. -/
  others : s₁.Rounds fuel idle s₂
  /-- Together there are as many as the session was asked for. -/
  count : reports.length + idle.length = count
  /-- The loop goes on after every tick that has stepped an agent. -/
  goesOn : ∀ report ∈ reports.dropLast, report.stepped ≠ 0
  /-- If there are ticks left, the last one of the loop has stepped none. -/
  stops : idle ≠ [] → ∃ report ∈ reports.getLast?, report.stepped = 0
  /-- The ticks that are left step no agent and route no message. -/
  idles : ∀ report ∈ idle, report.stepped = 0 ∧ report.routed = 0
  /-- They change nothing but the journal. -/
  essence : s₂.essence = s₁.essence

/-- The early end of the loop of a session makes no difference to its agents and machines, to what
scripts have printed, to the clock and to the exit code. -/
structure LosesNothing (o : Options) (files : Files) (fuel : Nat) (readings : Nat → Float) :
    Prop where
  /-- No tick of the group ends with an error, however many there have been. -/
  succeeds : ∀ s, start o files fuel readings = some (none, s) → ∀ reports s',
    s.Rounds fuel reports s' → ∀ ending, s'.hub.tick fuel s'.bridge = some ending →
      ∃ report, ending.result = .ok report
  /-- Either both loops come to an end or both take more steps than there is fuel for, and the
  first ends as soon as a tick has stepped no agent. -/
  ends : ∀ s, start o files fuel readings = some (none, s) → ∀ count,
    Option.Rel (fun s₁ s₂ => ∃ reports idle, Ends fuel count s s₁ s₂ reports idle)
      (s.ticks fuel 0 count) (s.allTicks fuel 0 count)
  /-- Both sessions end with the same exit code and in the same state, but for the journal. -/
  exits : (run o files fuel readings).map (fun (code, s) => (code, s.essence)) =
    (runAll o files fuel readings).map fun (code, s) => (code, s.essence)

/-- Ticks after ticks are ticks. -/
theorem Rounds.append {reports more : List TickReport} (h : s.Rounds fuel reports s')
    (h' : s'.Rounds fuel more s₁) : s.Rounds fuel (reports ++ more) s₁ := by
  induction h with
  | rest _ => exact h'
  | tick journal htick hresult _ ih => exact .tick journal htick hresult (ih h')

end Loop

section Staffing

/-- Every agent has a loaded machine, and every loaded machine belongs to an agent. -/
structure Staffed (s : Session) : Prop where
  reachable : s.bridge.Reachable
  manned : s.hub.Manned s.bridge
  owned : ∀ k < s.bridge.vmCount, ∃ agent ∈ s.hub.agents, agent.vm.index = k

/-- A session without agents has no machines that need one. -/
theorem staffed_new (neighborDistance : Float32) (readings : Nat → Float) :
    (new neighborDistance readings).Staffed where
  reachable := .new _ _ _ _
  manned _ h := nomatch h
  owned _ h := absurd h (Nat.not_lt_zero _)

/-- The bridge of a session has been operated. -/
theorem Staffed.carries {b : Bridge Clock} (h : s.Staffed) (hcarries : s.bridge.Carries b) :
    Staffed { s with bridge := b } where
  reachable := h.reachable.stays hcarries.stays
  manned := h.manned.stays hcarries.stays
  owned := by
    rw [hcarries.vmCount]
    exact h.owned

/-- If the work succeeds on a session that is staffed, the session is staffed after it. -/
def Setup.Staffs {α : Type} (work : Setup α) : Prop :=
  ∀ s a s', s.Staffed → work s = (.ok a, s') → s'.Staffed

namespace Setup

variable {α β : Type} {work : Setup α} {next : α → Setup β}

/-- Work goes on after a success only. -/
theorem bind_eq (work : Setup α) (next : α → Setup β) (s : Session) :
    (work >>= next) s = match work s with
      | (.ok a, s₁) => next a s₁
      | (.error e, s₁) => (.error e, s₁) := by
  have hbind : (work >>= next) s =
      (ExceptT.bindCont next (work s).1 : StateM Session (Except SetupError β)) (work s).2 := rfl
  rw [hbind]
  match work s with
  | (.ok a, s₁) => rfl
  | (.error e, s₁) => rfl

/-- Doing nothing leaves a session staffed. -/
theorem staffs_pure (a : α) : Staffs (pure a : Setup α) := by
  intro s _ s' h hwork
  cases hwork
  exact h

/-- Work that leaves a session staffed may be followed by more such work. -/
theorem Staffs.bind (hwork : Staffs work) (hnext : ∀ a, Staffs (next a)) :
    Staffs (work >>= next) := by
  intro s b s' h hbind
  rw [bind_eq] at hbind
  split at hbind
  · rename_i a s₁ heq
    exact hnext a s₁ b s' (hwork s a s₁ h heq) hbind
  · cases hbind

/-- So may work in a loop. -/
theorem staffs_forIn {γ : Type} {body : γ → PUnit → Setup (ForInStep PUnit)}
    (hbody : ∀ x, Staffs (body x ⟨⟩)) (xs : List γ) : Staffs (forIn xs ⟨⟩ body) := by
  induction xs with
  | nil => exact staffs_pure _
  | cons x rest ih =>
    rw [List.forIn_cons]
    refine (hbody x).bind fun step => ?_
    cases step with
    | done => exact staffs_pure _
    | yield => exact ih

/-- Changing the slots leaves a session staffed. -/
theorem staffs_changeHooks {f : Bridge Clock → Except HookError (Bridge Clock)}
    (hf : ∀ b b', f b = .ok b' → b.Carries b') : Staffs (changeHooks f) := by
  intro s _ s' h hwork
  unfold changeHooks at hwork
  split at hwork
  · rename_i b' hb'
    cases hwork
    exact h.carries (hf _ _ hb')
  · cases hwork

end Setup

/-- Setting up the host module leaves a session staffed. -/
theorem staffs_setupModule : Setup.Staffs setupModule := by
  refine Setup.Staffs.bind ?_ fun _ => Setup.Staffs.bind (Setup.staffs_changeHooks ?_) fun _ => ?_
  · intro s _ s' h hwork
    cases hwork
    exact h.carries (Bridge.carries_of_minor (.installModule hostModule) rfl trivial)
  · exact fun b b' hb' => Bridge.carries_of_attempt (.importModule moduleName) rfl trivial hb'
  · intro s _ s' h hwork
    have hs' : s' = { s with bridge := s.bridge.registerInit.2 } := (congrArg Prod.snd hwork).symm
    rw [hs']
    exact h.carries (Bridge.carries_of_minor .registerInit rfl trivial)

/-- What preparing an agent makes of a session. -/
theorem setupAgent_eq (o : Options) (files : Files) (id : UInt16) (s : Session) :
    setupAgent o files id s = match s.bridge.load files o.bytecode o.debug id with
      | .error error => (.error (.load error), s)
      | .ok (bridge, vm) =>
        match bridge.registerHook vm 0 "clock" with
        | .error error => (.error (.hook error), { s with bridge })
        | .ok bridge =>
          let position : Position := ⟨Float32.ofNat id.toNat * o.spacing, 0, 0⟩
          (.ok (), { hub := s.hub.addAgent ⟨vm, id⟩ position, bridge }) := by
  have hget : setupAgent o files id s = (match s.bridge.load files o.bytecode o.debug id with
      | .error error => throw (.load error)
      | .ok (bridge, vm) => do
        set { s with bridge }
        changeHooks fun b => b.registerHook vm 0 "clock"
        let position : Position := ⟨Float32.ofNat id.toNat * o.spacing, 0, 0⟩
        modify fun s => { s with hub := s.hub.addAgent ⟨vm, id⟩ position } : Setup Unit) s := rfl
  rw [hget]
  cases s.bridge.load files o.bytecode o.debug id with
  | error error => rfl
  | ok loaded =>
    obtain ⟨bridge, vm⟩ := loaded
    have hset : (set { s with bridge } : Setup Unit) s = (.ok (), { s with bridge }) := rfl
    dsimp only
    rw [Setup.bind_eq, hset]
    dsimp only
    rw [Setup.bind_eq]
    unfold changeHooks
    dsimp only
    cases bridge.registerHook vm 0 "clock" with
    | error error => rfl
    | ok bridge => rfl

/-- An agent comes with a machine of its own. -/
theorem staffs_setupAgent (o : Options) (files : Files) (id : UInt16) :
    Setup.Staffs (setupAgent o files id) := by
  intro s _ s' h hwork
  rw [setupAgent_eq] at hwork
  split at hwork
  · cases hwork
  · rename_i bridge vm hload
    split at hwork
    · cases hwork
    · rename_i bridge' hregister
      cases hwork
      obtain ⟨hvm, program, debug, journal, hgains⟩ := Bridge.gains_of_load hload
      have hcarries : bridge.Carries bridge' :=
        Bridge.carries_of_attempt (.registerHook vm 0 "clock") rfl trivial hregister
      have hstays : s.bridge.Stays bridge' := (Bridge.stays_load hload).trans hcarries.stays
      have hcount : bridge'.vmCount = s.bridge.vmCount + 1 := by
        rw [hcarries.vmCount, hgains]
        exact Array.size_push _
      refine ⟨h.reachable.stays hstays, ?_, fun k hk => ?_⟩
      · intro agent hagent
        rcases List.mem_append.mp hagent with hagent | hagent
        · exact h.manned.stays hstays agent hagent
        · rw [List.mem_singleton.mp hagent]
          refine Bridge.exists_find_of_lt ?_
          rw [hcount, hvm]
          exact Nat.lt_succ_self _
      · change k < bridge'.vmCount at hk
        rw [hcount] at hk
        rcases Nat.lt_succ_iff_lt_or_eq.mp hk with hlt | rfl
        · obtain ⟨agent, hagent, hindex⟩ := h.owned k hlt
          exact ⟨agent, List.mem_append_left _ hagent, hindex⟩
        · exact ⟨⟨vm, id⟩, List.mem_append_right _ List.mem_cons_self, by rw [hvm]⟩

/-- Setting up a session leaves it staffed. -/
theorem staffs_setup (o : Options) (files : Files) : Setup.Staffs (setup o files) := by
  refine staffs_setupModule.bind fun _ => ?_
  refine (Setup.staffs_forIn (fun id => ?_) _).bind fun _ => Setup.staffs_pure _
  exact (staffs_setupAgent o files _).bind fun _ => Setup.staffs_pure _

/-- A session that begins is staffed. -/
theorem staffed_of_start {o : Options} {files : Files}
    (h : start o files fuel readings = some (none, s)) : s.Staffed := by
  unfold start at h
  dsimp only at h
  split at h
  · cases h
  · split at h
    · rename_i s₁ hsetup
      cases h
      exact staffs_setup o files _ _ _ (staffed_new _ _) hsetup
    · obtain ⟨_, _, heq⟩ := Option.map_eq_some_iff.mp h
      cases heq

end Staffing

section Stopping

/-- All agents of a session have stopped, and no mail waits. -/
structure Stopped (s : Session) : Prop where
  staffed : s.Staffed
  agents : ∀ agent ∈ s.hub.agents, s.bridge.isStopped agent.vm = true
  mail : s.hub.pending = {}

/-- A tick of the group succeeds, and the session is staffed after it, whatever is reported. -/
theorem Staffed.exists_report (h : s.Staffed) {ending : TickEnding Clock}
    (hending : s.hub.tick fuel s.bridge = some ending) : ∃ report, ending.result = .ok report ∧
      ∀ world, Staffed ⟨ending.hub, { ending.bridge with world }⟩ := by
  obtain ⟨report, _, hreport, _⟩ := (h.manned.proceeds h.reachable).counts fuel ending hending
  have hagents := Hub.agents_tick hending
  refine ⟨report, hreport, fun world => ?_⟩
  have h' := h.carries ((Hub.carries_tick hending).trans (Bridge.carries_world world))
  refine ⟨h'.reachable, ?_, ?_⟩
  · unfold Hub.Manned
    rw [hagents]
    exact h'.manned
  · rw [hagents]
    exact h'.owned

/-- Ticks keep the session staffed. -/
theorem Staffed.rounds {reports : List TickReport} (h : s.Staffed)
    (hrounds : s.Rounds fuel reports s') : s'.Staffed := by
  induction hrounds with
  | rest _ => exact h
  | tick journal htick _ _ ih =>
    obtain ⟨_, _, hstaffed⟩ := h.exists_report htick
    exact ih (hstaffed _)

/-- A tick of the session is a tick of the group with reports. The session goes on after it if an
agent was stepped, and otherwise its agents have stopped. -/
theorem Staffed.tick (h : s.Staffed) {goesOn : Bool}
    (htick : s.tick fuel number = some (goesOn, s')) :
    ∃ report, s.Rounds fuel [report] s' ∧ (goesOn = true ↔ report.stepped ≠ 0) ∧
      (goesOn = false → s'.Stopped) := by
  obtain ⟨ending, hending, heq⟩ := Option.map_eq_some_iff.mp htick
  obtain ⟨report, hreport, hstaffed⟩ := h.exists_report hending
  have hagents := Hub.agents_tick hending
  dsimp only at heq
  rw [hreport] at heq
  dsimp only at heq
  refine ⟨report, ?_⟩
  split at heq
  · rename_i hnone
    cases heq
    obtain ⟨hstopped, hmail⟩ := h.manned.stops h.reachable hending hreport hnone
    refine ⟨.tick _ hending hreport (.rest _), ?_, fun _ => ⟨hstaffed _, ?_, hmail⟩⟩
    · simp [hnone]
    · change ∀ agent ∈ ending.hub.agents, ending.bridge.isStopped agent.vm = true
      rw [hagents]
      exact hstopped
  · rename_i hsome
    cases heq
    exact ⟨.tick _ hending hreport (.rest _), by simp [hsome], nofun⟩

/-- Once all agents have stopped, a tick only reports. -/
theorem Stopped.tick (h : s.Stopped) (fuel number : Nat) :
    ∃ report s', s.tick fuel number = some (false, s') ∧ s.Rounds fuel [report] s' ∧
      report.stepped = 0 ∧ report.routed = 0 ∧ s'.Stopped ∧ s'.essence = s.essence := by
  obtain ⟨journal, htick⟩ := Hub.exists_tick_of_stopped fuel h.staffed.manned h.agents
  have hhub : { s.hub with pending := {} } = s.hub := by rw [← h.mail]
  rw [hhub] at htick
  have hanswer : ∃ journal, s.tick fuel number = some (false,
      { s with bridge := { s.bridge with world := { s.bridge.world with journal } } }) := by
    unfold Session.tick
    rw [htick]
    exact ⟨_, rfl⟩
  obtain ⟨journal', hanswer⟩ := hanswer
  exact ⟨_, _, hanswer, .tick journal' htick rfl (.rest _), rfl, rfl,
    ⟨h.staffed.carries (Bridge.carries_world _), h.agents, h.mail⟩, rfl⟩

/-- Once all agents have stopped, all ticks that are left only report. -/
theorem Stopped.exists_allTicks (h : s.Stopped) (fuel number count : Nat) :
    ∃ idle s', s.allTicks fuel number count = some s' ∧ s.Rounds fuel idle s' ∧
      idle.length = count ∧ (∀ report ∈ idle, report.stepped = 0 ∧ report.routed = 0) ∧
      s'.Stopped ∧ s'.essence = s.essence := by
  induction count generalizing s number with
  | zero => exact ⟨[], s, rfl, .rest s, rfl, nofun, h, rfl⟩
  | succ count ih =>
    obtain ⟨report, s₁, htick, hround, hstepped, hrouted, h₁, hessence₁⟩ := h.tick fuel number
    obtain ⟨idle, s₂, hticks, hrounds, hlength, hidle, h₂, hessence₂⟩ := ih h₁ (number + 1)
    refine ⟨report :: idle, s₂, ?_, hround.append hrounds, congrArg (· + 1) hlength, ?_, h₂,
      hessence₂.trans hessence₁⟩
    · unfold allTicks
      rw [htick]
      exact hticks
    · exact List.forall_mem_cons.mpr ⟨⟨hstepped, hrouted⟩, hidle⟩

/-- Sessions are the same, or all their agents have stopped and they differ in what has been
reported. -/
def Parallels (s s' : Session) : Prop :=
  s' = s ∨ s.Stopped ∧ s'.Stopped ∧ s'.essence = s.essence

/-- A tick that has stepped an agent comes before the ticks of the loop. -/
theorem Ends.cons {report : TickReport} {reports idle : List TickReport}
    (h : Ends fuel count s' s₁ s₂ reports idle) (hround : s.Rounds fuel [report] s')
    (hstepped : report.stepped ≠ 0) :
    Ends fuel (count + 1) s s₁ s₂ (report :: reports) idle where
  loop := hround.append h.loop
  others := h.others
  count := by
    have := h.count
    rw [List.length_cons]
    omega
  goesOn := by
    cases hreports : reports with
    | nil => exact nofun
    | cons first rest =>
      rw [List.dropLast_cons_cons, List.forall_mem_cons, ← hreports]
      exact ⟨hstepped, h.goesOn⟩
  stops hidle := by
    obtain ⟨last, hlast, hnone⟩ := h.stops hidle
    refine ⟨last, ?_, hnone⟩
    rw [List.getLast?_cons, Option.mem_def.mp hlast]
    rfl
  idles := h.idles
  essence := h.essence

/-- The loop of a session and all of its ticks end alike. -/
theorem Staffed.ends (h : s.Staffed) (fuel number count : Nat) :
    Option.Rel (fun s₁ s₂ => Parallels s₁ s₂ ∧ ∃ reports idle, Ends fuel count s s₁ s₂ reports idle)
      (s.ticks fuel number count) (s.allTicks fuel number count) := by
  induction count generalizing s number with
  | zero => exact .some ⟨.inl rfl, [], [], .rest s, .rest s, rfl, nofun, nofun, nofun, rfl⟩
  | succ count ih =>
    unfold ticks allTicks
    cases htick : s.tick fuel number with
    | none => exact .none
    | some answer =>
      obtain ⟨goesOn, s'⟩ := answer
      obtain ⟨report, hround, hgoesOn, hstopped⟩ := h.tick htick
      -- Both go on alike until a tick steps no agent; from then on the others only report.
      cases goesOn with
      | true =>
        have hboth := ih (h.rounds hround) (number + 1)
        change Option.Rel _ (s'.ticks fuel (number + 1) count) (s'.allTicks fuel (number + 1) count)
        generalize s'.ticks fuel (number + 1) count = first at hboth ⊢
        generalize s'.allTicks fuel (number + 1) count = second at hboth ⊢
        cases hboth with
        | none => exact .none
        | some hends =>
          obtain ⟨hparallels, reports, idle, hends⟩ := hends
          exact .some ⟨hparallels, _, _, hends.cons hround (hgoesOn.mp rfl)⟩
      | false =>
        have hnone : report.stepped = 0 := by
          by_contra hstepped
          exact Bool.false_ne_true (hgoesOn.mpr hstepped)
        obtain ⟨idle, s₂, hticks, hrounds, hlength, hidle, h₂, hessence⟩ :=
          (hstopped rfl).exists_allTicks fuel (number + 1) count
        change Option.Rel _ (some s') (s'.allTicks fuel (number + 1) count)
        rw [hticks]
        refine .some ⟨.inr ⟨hstopped rfl, h₂, hessence⟩, [report], idle, hround, hrounds, ?_,
          nofun, fun _ => ⟨report, rfl, hnone⟩, hidle, hessence⟩
        rw [List.length_singleton, hlength, Nat.add_comm]

end Stopping

section Finishing

/-- Unloading a script that has faulted only reports. -/
theorem exists_destroy {i : Instance} (hstopped : i.machine.isReady = false)
    (hooks : HookTable Clock) (fuel : Nat) (w : World Clock) :
    ∃ journal, i.destroy hooks fuel w = some (some i.diagnosis, { w with journal }) := by
  rw [Instance.destroy_eq]
  unfold Instance.dismiss Instance.farewell
  simp only [hstopped, Bool.false_eq_true, if_false, Option.map_some]
  exact ⟨_, rfl⟩

/-- Destroying scripts that have stopped answers their diagnoses and changes nothing but the
journal. -/
theorem exists_destroyEach {scripts : List Instance}
    (hstopped : ∀ i ∈ scripts, i.machine.isReady = false) (hooks : HookTable Clock) (fuel : Nat)
    (w : World Clock) : ∃ journal, Instance.destroyEach hooks fuel scripts w =
      some (scripts.map Instance.diagnosis, { w with journal }) := by
  induction scripts generalizing w with
  | nil => exact ⟨w.journal, rfl⟩
  | cons i rest ih =>
    obtain ⟨hi, hrest⟩ := List.forall_mem_cons.mp hstopped
    obtain ⟨journal, hdestroy⟩ := exists_destroy hi hooks fuel w
    obtain ⟨journal', hothers⟩ := ih hrest { w with journal }
    refine ⟨journal', ?_⟩
    unfold Instance.destroyEach
    rw [hdestroy]
    simp only [bind, Option.bind]
    rw [hothers]
    rfl

/-- All machines of a session in which all agents have stopped have stopped. -/
theorem Stopped.isReady_eq (h : s.Stopped) {i : Instance} (hi : i ∈ s.bridge.instances.toList) :
    i.machine.isReady = false := by
  obtain ⟨k, hk⟩ := Array.mem_iff_getElem?.mp (Array.mem_toList_iff.mp hi)
  obtain ⟨hlt, _⟩ := Array.getElem?_eq_some_iff.mp hk
  obtain ⟨agent, hagent, rfl⟩ := h.staffed.owned k hlt
  have hstopped := h.agents agent hagent
  rw [Bridge.isStopped_of_find (Bridge.find_of_instance? hk)] at hstopped
  simpa using hstopped

/-- A session in which all agents have stopped ends with the exit code that the number of its
machines decides. -/
theorem Stopped.finish_eq (h : s.Stopped) (fuel : Nat) :
    (s.finish fuel).map (fun (code, s) => (code, s.essence)) =
      some (if s.essence.bridge.instances.toList.isEmpty then 0 else 1,
        { s.essence with bridge := { s.essence.bridge with instances := #[] } }) := by
  obtain ⟨journal, hdestroy⟩ :=
    exists_destroyEach (fun i => h.isReady_eq) s.bridge.hooks fuel s.bridge.world
  have hmachines : s.essence.bridge.instances = s.bridge.instances := rfl
  unfold finish close Bridge.destroyAll
  rw [hdestroy, hmachines]
  simp only [Option.map_some, List.isEmpty_map, Bool.not_eq_true']
  cases s.bridge.instances.toList.isEmpty <;> rfl

/-- Sessions that differ in what has been reported finish the same. -/
theorem Parallels.finish (h : s.Parallels s') (fuel : Nat) :
    (s.finish fuel).map (fun (code, s) => (code, s.essence)) =
      (s'.finish fuel).map fun (code, s) => (code, s.essence) := by
  rcases h with rfl | ⟨h, h', hessence⟩
  · rfl
  · rw [h.finish_eq, h'.finish_eq, hessence]

/-- Leaving the loop of a session early loses nothing. -/
theorem losesNothing (o : Options) (files : Files) (fuel : Nat) (readings : Nat → Float) :
    LosesNothing o files fuel readings where
  succeeds s hstart reports s' hrounds ending hending := by
    obtain ⟨report, hreport, _⟩ := ((staffed_of_start hstart).rounds hrounds).exists_report hending
    exact ⟨report, hreport⟩
  ends s hstart count := by
    have hboth := (staffed_of_start hstart).ends fuel 0 count
    generalize s.ticks fuel 0 count = first at hboth ⊢
    generalize s.allTicks fuel 0 count = second at hboth ⊢
    cases hboth with
    | none => exact .none
    | some hends => exact .some hends.2
  exits := by
    unfold run runAll
    cases hstart : start o files fuel readings with
    | none => rfl
    | some answer =>
      match answer with
      | (some code, s) => rfl
      | (none, s) =>
        have hboth := (staffed_of_start hstart).ends fuel 0 o.ticks.toNat
        simp only [Option.bind_eq_bind, Option.bind_some]
        generalize s.ticks fuel 0 o.ticks.toNat = first at hboth ⊢
        generalize s.allTicks fuel 0 o.ticks.toNat = second at hboth ⊢
        cases hboth with
        | none => rfl
        | some hends => exact hends.1.finish fuel

end Finishing

/-- Ticks of a group with loaded machines succeed, count every agent once and never take a fault
back; a tick that steps no agent is followed by nothing but reports. So the early end of the loop
of a session loses nothing, whatever the script, the arguments and the readings of the clock are. -/
theorem early_end_harmless {σ : Type} :
    (∀ (h : Hub) (b : Bridge σ), b.Reachable → h.Manned b → h.Proceeds b) ∧
      ∀ o files fuel readings, LosesNothing o files fuel readings :=
  ⟨fun _ _ hb hmanned => hmanned.proceeds hb, losesNothing⟩

/-- A clock whose first four readings grow and that runs backwards from then on. -/
def unsteady (count : Nat) : Float :=
  if count < 4 then Float.ofNat count else -Float.ofNat count

end Session

/-- A script whose function `step` reads the clock twice, prints and sends a string if the second
reading is the later one, and fails if it is not; and a debug-symbol table without entries. -/
def Files.timing : Files := fun path =>
  if path = "script" then .ok [0x48, 0x49, 0x56, 0x45, 1, 5, 0, 4, 0, 0x73, 0x74, 0x65, 0x70, 5, 0,
    0x63, 0x6c, 0x6f, 0x63, 0x6b, 5, 0, 0x70, 0x72, 0x69, 0x6e, 0x74, 4, 0, 0x74, 0x69, 0x63, 0x6b,
    4, 0, 0x73, 0x65, 0x6e, 0x64, 47, 0, 0, 0, 6, 9, 0, 0, 0, 13, 0, 0, 0, 12, 1, 0, 16, 0, 12, 1,
    0, 16, 0, 33, 20, 44, 0, 0, 0, 12, 2, 0, 5, 3, 0, 16, 1, 9, 12, 4, 0, 5, 3, 0, 16, 1, 9, 17, 2,
    27, 17]
  else .ok [0x48, 0x44, 0x42, 0x47, 0, 0]

namespace Session

/-- Two agents run the script and are to take ten ticks. In the first one both read the clock
twice, print and send; in the second one both fail. So the loop ends after two ticks, and the
eight that are left make no difference. -/
theorem early_end_harmless_timing :
    let o : Options := { bytecode := "script", debug := "symbols", agents := 2 }
    LosesNothing o Files.timing 40 unsteady ∧
      (runCommandLine ["script", "symbols", "--agents", "2"] Files.timing 40 unsteady).map
          (fun left => (left.1, left.2.1,
            (left.2.2.filter fun e => e.level ≠ .error).toList.map LogEntry.text)) =
        some (1, "tick\ntick\n", ["host module ready", "host runtime initialized",
          "tick 0: 2 stepped, 0 faulted, 2 messages routed",
          "tick 1: 0 stepped, 2 faulted, 0 messages routed",
          "every agent has faulted, stopping", "Script execution stopped."]) ∧
      ∃ s s₁ s₂ reports idle, start o Files.timing 40 unsteady = some (none, s) ∧
        s.hub.Proceeds s.bridge ∧ s.ticks 40 0 10 = some s₁ ∧ s.allTicks 40 0 10 = some s₂ ∧
        Ends 40 10 s s₁ s₂ reports idle ∧ idle ≠ [] ∧
        ∃ report ∈ reports.getLast?, report.stepped = 0 := by
  intro o
  have hloses : LosesNothing o Files.timing 40 unsteady :=
    (early_end_harmless (σ := Clock)).2 o Files.timing 40 unsteady
  refine ⟨hloses, by decide +kernel, ?_⟩
  have hcheck : (start o Files.timing 40 unsteady).any (fun begun => begun.1.isNone &&
      (begun.2.ticks 40 0 10).any fun s₁ => (begun.2.allTicks 40 0 10).any fun s₂ =>
        decide (s₁.bridge.world.journal.size < s₂.bridge.world.journal.size)) = true := by
    decide +kernel
  obtain ⟨⟨code, s⟩, hstart, hbegun⟩ := (Option.any_eq_true _ _).mp hcheck
  obtain ⟨hcode, hbegun⟩ := (Bool.and_eq_true _ _).mp hbegun
  obtain ⟨s₁, hticks, hbegun⟩ := (Option.any_eq_true _ _).mp hbegun
  obtain ⟨s₂, hall, hmore⟩ := (Option.any_eq_true _ _).mp hbegun
  obtain rfl : code = none := Option.isNone_iff_eq_none.mp hcode
  have hends := hloses.ends s hstart 10
  rw [hticks, hall] at hends
  cases hends with
  | some hends =>
    obtain ⟨reports, idle, hends⟩ := hends
    -- The ticks that are left have reported something, so there are some.
    have hidle : idle ≠ [] := by
      rintro rfl
      have hothers := hends.others
      cases hothers
      exact absurd (of_decide_eq_true hmore) (Nat.lt_irrefl _)
    have hstaffed := staffed_of_start hstart
    exact ⟨s, s₁, s₂, reports, idle, hstart,
      early_end_harmless.1 s.hub s.bridge hstaffed.reachable hstaffed.manned, hticks, hall, hends,
      hidle, hends.stops hidle⟩

end Session

end Swarm
