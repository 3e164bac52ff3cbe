import Swarm.Proofs.Parts

/-!
# Visits

The part of an agent in a tick concerns its own machine alone. A stopped agent
loses its mail; any other one gets it in its order, takes a step, and if it can go
on, everything that it has sent becomes letters to the agents that it sees.
-/

namespace Swarm

namespace Bridge

variable {σ : Type} {vm : Handle} {b b' b'' : Bridge σ} {i i' i'' : Instance}

/-- The machine with the handle has been exchanged; no other one has changed. -/
structure Alters (vm : Handle) (b : Bridge σ) (i : Instance) (b' : Bridge σ) (i' : Instance) :
    Prop where
  before : b.find vm = .ok i
  after : b'.find vm = .ok i'
  others : ∀ other, other ≠ vm → b'.instance? other = b.instance? other

/-- Altering a script twice is altering it. -/
theorem Alters.trans (h : Alters vm b i b' i') (h' : Alters vm b' i' b'' i'') :
    Alters vm b i b'' i'' :=
  ⟨h.before, h'.after, fun other hne => (h'.others other hne).trans (h.others other hne)⟩

/-- Putting a machine in its place changes no other one. -/
theorem alters_replace (h : b.find vm = .ok i) (heq : b'.instances = (b.replace vm i').instances) :
    Alters vm b i b' i' :=
  ⟨h, find_replace h heq, fun _ hne => instance?_replace_ne heq hne⟩

/-- A step changes only the machine that takes it. -/
theorem alters_step {fuel : Nat} {outcome : StepOutcome} (h : b.find vm = .ok i)
    (hstep : b.step fuel vm = some (.ok (outcome, b'))) : ∃ i', Alters vm b i b' i' := by
  obtain ⟨_, i', world, _, _, rfl⟩ := exists_of_step hstep
  exact ⟨i', alters_replace h rfl⟩

/-- Changing the store of a script alters it and no other. -/
theorem alters_adjust {f : Store Native → Store Native} (h : b.find vm = .ok i) :
    Alters vm b i (b.adjust vm f) { i with machine := i.machine.mapStore f } := by
  rw [← replace_mapStore h]
  exact alters_replace h rfl

/-- Draining gives everything that the script has sent, the oldest first. -/
theorem exists_drained (h : b.find vm = .ok i) :
    ∃ b' i', b.drainOutbound vm = .ok (i.machine.store.mailbox.outbound, b') ∧
      Alters vm b i b' i' ∧ i'.machine.store.mailbox.outbound = [] := by
  rw [drainOutbound_eq (lt_vmCount_of_find h), outbound_eq h]
  exact ⟨_, _, rfl, alters_adjust h, rfl⟩

end Bridge

section Serving

variable {σ : Type} {vm : Handle} {b : Bridge σ} {i : Instance} {mailbox : Mailbox}
  {s : TickState σ}

/-- Since the bridge `b` only the store of the one machine has changed; its queues are now the
given ones. -/
def TickState.Serves (vm : Handle) (b : Bridge σ) (i : Instance) (mailbox : Mailbox)
    (s : TickState σ) : Prop :=
  ∃ store, b.Alters vm i s.bridge { i with machine := { i.machine with store } } ∧
    store.mailbox = mailbox

/-- Nothing but the bridge and the mail to be delivered is different. -/
structure TickState.Agrees (s s' : TickState σ) : Prop where
  pending : s'.pending = s.pending
  report : s'.report = s.report

/-- What agrees with what agrees agrees. -/
theorem TickState.Agrees.trans {s s' s'' : TickState σ} (h : s.Agrees s') (h' : s'.Agrees s'') :
    s.Agrees s'' :=
  ⟨h'.pending.trans h.pending, h'.report.trans h.report⟩

end Serving

namespace Hub

variable {σ : Type} {h : Hub} {fuel : Nat} {agent : Agent} {b b' : Bridge σ} {i i' : Instance}
  {s : TickState σ}

/-- The queues of a machine after mail has been fed to it. -/
def fed (mailbox : Mailbox) (mail : Option (List Message)) : Mailbox :=
  { mailbox with inbound := mailbox.inbound ++ mail.getD [] }

/-- Before its step an agent is fed its mail in its order. -/
theorem ends_prepare (hfind : s.bridge.find agent.vm = .ok i) :
    Work.Ends (h.prepare agent) s
      (fun _ s' => s'.Serves agent.vm s.bridge i
          (fed i.machine.store.mailbox s.inbox[agent.contextId]?) ∧
        s'.inbox = s.inbox.erase agent.contextId ∧ s.Agrees s')
      fun _ _ => False := by
  have hserves : (h.prepared agent s).Serves agent.vm s.bridge i
      (fed i.machine.store.mailbox s.inbox[agent.contextId]?) :=
    ⟨_, Bridge.alters_adjust hfind, mailbox_briefing _ _⟩
  exact Work.ends_of_eq (prepare_eq (Bridge.lt_vmCount_of_find hfind)) ⟨hserves, rfl, rfl, rfl⟩

/-- A loaded machine takes a step without an error of the bridge. -/
theorem ends_step (hfind : s.bridge.find agent.vm = .ok i) :
    Work.Ends (Ticking.step fuel agent.vm) s
      (fun outcome s' => s.bridge.step fuel agent.vm = some (.ok (outcome, s'.bridge)) ∧
        (∃ i', s.bridge.Alters agent.vm i s'.bridge i') ∧ s'.inbox = s.inbox ∧ s.Agrees s')
      fun _ _ => False := by
  intro answer hanswer
  obtain ⟨result, hstep, rfl⟩ := Option.map_eq_some_iff.mp hanswer
  match result with
  | .ok (outcome, b') => exact ⟨hstep, Bridge.alters_step hfind hstep, rfl, rfl, rfl⟩
  | .error e => exact (Bridge.step_ne_error hfind e hstep).elim

/-- Everything in the outbound queue of an agent is sent and counted. -/
theorem ends_route (hfind : s.bridge.find agent.vm = .ok i) :
    Work.Ends (h.route agent) s
      (fun _ s' =>
        s.bridge.drainOutbound agent.vm = .ok (i.machine.store.mailbox.outbound, s'.bridge) ∧
        s'.inbox = s.inbox ∧
        s'.pending = s.pending.addAll (h.letters agent i.machine.store.mailbox.outbound) ∧
        s'.report.routed =
          s.report.routed + (h.letters agent i.machine.store.mailbox.outbound).length)
      fun _ _ => False := by
  have hloaded := Bridge.lt_vmCount_of_find hfind
  rw [← Bridge.outbound_eq hfind]
  exact Work.ends_of_eq (route_eq hloaded) ⟨Bridge.drainOutbound_eq hloaded, rfl, rfl, rfl⟩

/-- What happens to the mail of an agent that has stopped. -/
def discarded (agent : Agent) (mail : Option (List Message)) (b : Bridge σ) : Bridge σ :=
  match mail with
  | none => b
  | some messages =>
    b.report .debug s!"{agent.vm.text}: discarding {messages.length} messages for a stopped agent"

/-- Discarding mail takes it out and reports it. -/
theorem discardMail_eq (agent : Agent) : (discardMail agent : Ticking σ Unit) =
    Ticking.takeMail agent.contextId >>= fun mail =>
      Ticking.change fun b => .ok (discarded agent mail b) := by
  unfold discardMail
  congr 1
  funext mail
  cases mail <;> rfl

/-- The mail of an agent that has stopped is taken and not delivered. -/
theorem ends_discardMail : Work.Ends (discardMail agent) s
    (fun _ s' => s'.bridge = discarded agent s.inbox[agent.contextId]? s.bridge ∧
      s'.inbox = s.inbox.erase agent.contextId ∧ s.Agrees s') fun _ _ => False := by
  rw [discardMail_eq]
  exact Work.ends_of_eq rfl ⟨rfl, rfl, rfl, rfl⟩

/-- The part of an agent in a tick, with what it has sent: an agent that has stopped sends nothing
and gets no mail; any other one is fed all its mail before its step, and sends its whole outbound
queue if the step ends in readiness. -/
inductive Plays (fuel : Nat) (agent : Agent) (mail : Option (List Message)) (b : Bridge σ) :
    List Bytes → Bridge σ → Prop where
  | stopped {i : Instance} (hfind : b.find agent.vm = .ok i)
      (hstopped : i.machine.isReady = false) : Plays fuel agent mail b [] (discarded agent mail b)
  | faulted {i : Instance} {store : Store Native} {b₁ b' : Bridge σ} {diagnosis : String}
      (hready : i.machine.isReady = true)
      (hfed : b.Alters agent.vm i b₁ { i with machine := { i.machine with store } })
      (hmailbox : store.mailbox = fed i.machine.store.mailbox mail)
      (hstep : b₁.step fuel agent.vm = some (.ok (.faulted diagnosis, b'))) :
      Plays fuel agent mail b [] b'
  | ready {i i₂ : Instance} {store : Store Native} {b₁ b₂ b' : Bridge σ}
      (hready : i.machine.isReady = true)
      (hfed : b.Alters agent.vm i b₁ { i with machine := { i.machine with store } })
      (hmailbox : store.mailbox = fed i.machine.store.mailbox mail)
      (hstep : b₁.step fuel agent.vm = some (.ok (.ready, b₂)))
      (hstepped : b₂.find agent.vm = .ok i₂)
      (hdrain : b₂.drainOutbound agent.vm = .ok (i₂.machine.store.mailbox.outbound, b')) :
      Plays fuel agent mail b i₂.machine.store.mailbox.outbound b'

/-- The visit of a loaded agent: it plays its part, its mail is gone, and what it has sent is
added to the mail for the next tick and counted. -/
theorem ends_visit (hfind : s.bridge.find agent.vm = .ok i) :
    Work.Ends (h.visit fuel agent) s
      (fun _ s' => ∃ sent, Plays fuel agent s.inbox[agent.contextId]? s.bridge sent s'.bridge ∧
        s'.inbox = s.inbox.erase agent.contextId ∧
        s'.pending = s.pending.addAll (h.letters agent sent) ∧
        s'.report.routed = s.report.routed + (h.letters agent sent).length)
      fun _ _ => False := by
  have hask : Work.Ends (Ticking.ask fun b => b.done agent.vm) s
      (fun stopped t => stopped = !i.machine.isReady ∧ s = t) fun _ _ => False := by
    intro answer hanswer
    unfold Ticking.ask Bridge.done at hanswer
    dsimp only at hanswer
    rw [hfind] at hanswer
    cases hanswer
    exact ⟨rfl, rfl⟩
  unfold visit
  apply hask.bind
  rintro _ _ ⟨rfl, rfl⟩
  by_cases hready : i.machine.isReady = true
  · rw [if_neg (by simp [hready])]
    refine (ends_prepare hfind).bind fun _ s₁ ⟨hserves, hinbox₁, hagrees₁⟩ => ?_
    obtain ⟨store, hfed, hmailbox⟩ := hserves
    refine (ends_step hfed.after).bind ?_
    rintro outcome s₂ ⟨hstep, ⟨i₂, hstepped⟩, hinbox₂, hagrees₂⟩
    have hagrees := hagrees₁.trans hagrees₂
    cases outcome with
    | ready =>
      apply Work.ends_modify_bind
      let counted : TickState σ :=
        { s₂ with report := { s₂.report with stepped := s₂.report.stepped + 1 } }
      have hfind₂ : counted.bridge.find agent.vm = .ok i₂ := hstepped.after
      refine (ends_route hfind₂).imp ?_ fun _ _ hfalse => hfalse
      rintro _ s₃ ⟨hdrain, hinbox₃, hpending₃, hrouted₃⟩
      refine ⟨_, .ready hready hfed hmailbox hstep hstepped.after hdrain, ?_, ?_, ?_⟩
      · exact hinbox₃.trans (hinbox₂.trans hinbox₁)
      · rw [hpending₃, ← hagrees.pending]
      · rw [hrouted₃, ← hagrees.report]
    | faulted diagnosis =>
      have hrouted : s₂.report.routed = s.report.routed := congrArg TickReport.routed hagrees.report
      exact Work.ends_modify ⟨[], .faulted hready hfed hmailbox hstep, hinbox₂.trans hinbox₁,
        hagrees.pending, hrouted⟩
  · rw [if_pos (by simp [hready])]
    refine ends_discardMail.bind fun _ s₁ ⟨hbridge, hinbox, hagrees⟩ => ?_
    have hrouted : s₁.report.routed = s.report.routed := congrArg TickReport.routed hagrees.report
    refine Work.ends_modify ⟨[], ?_, hinbox, hagrees.pending, hrouted⟩
    rw [hbridge]
    exact .stopped hfind (by simpa using hready)

end Hub

end Swarm
