import Swarm.Proofs.Protocol
import Swarm.Proofs.Routing

/-!
# Who is counted as faulted

A tick counts every agent once: as stepped if its machine can go on after the
visit, as faulted if it has stopped. Ticks are made of operations that unload
nothing, and no operation brings a machine back that has stopped. So the agents
that are counted as faulted stay faulted. Once all of them are, a tick takes no
step, sends nothing and changes no machine.
-/

namespace Swarm

namespace Bridge

variable {σ : Type} {b b' b'' : Bridge σ} {vm : Handle} {i : Instance}

/-- Operations that unload nothing lead on one after the other. -/
theorem Stays.trans (h : b.Stays b') (h' : b'.Stays b'') : b.Stays b'' := by
  induction h' with
  | refl => exact h
  | after _ hop hkeep ih => exact ih.after hop hkeep

/-- A load unloads nothing. -/
theorem stays_load {files : Files} {bytecodePath debugPath : String} {contextId : UInt16}
    (h : b.load files bytecodePath debugPath contextId = .ok (b', vm)) : b.Stays b' := by
  have hop : (Operation.load files bytecodePath debugPath contextId).after 0 b = some b' := by
    change some (b.attempt ((b.load files bytecodePath debugPath contextId).map Prod.fst)) = some b'
    rw [h]
    rfl
  exact .after .refl hop nofun

/-- Operations have led from the one bridge to the other, and no script has been loaded or
unloaded. -/
structure Carries (b b' : Bridge σ) : Prop where
  stays : b.Stays b'
  vmCount : b'.vmCount = b.vmCount

/-- A bridge carries over to itself. -/
theorem carries_refl (b : Bridge σ) : b.Carries b := ⟨.refl, rfl⟩

/-- A bridge that carries over twice carries over. -/
theorem Carries.trans (h : b.Carries b') (h' : b'.Carries b'') : b.Carries b'' :=
  ⟨h.stays.trans h'.stays, h'.vmCount.trans h.vmCount⟩

/-- A change of one store loads and unloads nothing. -/
theorem vmCount_of_touches (h : b.Touches b') : b'.vmCount = b.vmCount := by
  unfold vmCount
  cases h with
  | nothing hinstances _ => rw [hinstances]
  | store _ _ hinstances _ =>
    rw [hinstances]
    exact Array.size_setIfInBounds

/-- Operations that neither load nor step nor unload machines. -/
theorem carries_of_minor (op : Operation σ) (hop : op.after 0 b = some b') (hminor : op.IsMinor) :
    b.Carries b' := by
  refine ⟨.after .refl hop ?_, vmCount_of_touches (touches_after hop hminor)⟩
  rintro rfl
  exact hminor

/-- Such an operation, if it succeeds. -/
theorem carries_of_attempt {ε : Type} {result : Except ε (Bridge σ)} (op : Operation σ)
    (hop : op.after 0 b = some (b.attempt result)) (hminor : op.IsMinor)
    (hresult : result = .ok b') : b.Carries b' := by
  subst hresult
  exact carries_of_minor op hop hminor

/-- The host changes its world. -/
theorem carries_world (w : World σ) : b.Carries { b with world := w } :=
  carries_of_minor (.changeWorld w) rfl trivial

/-- Resetting neighbors loads and unloads nothing. -/
theorem carries_resetNeighbors (h : b.resetNeighbors vm = .ok b') : b.Carries b' :=
  carries_of_attempt (.resetNeighbors vm) rfl trivial h

/-- Adding a neighbor loads and unloads nothing. -/
theorem carries_addNeighbor {id : Int} {position : Position}
    (h : b.addNeighbor vm id position = .ok b') : b.Carries b' :=
  carries_of_attempt (.addNeighbor vm id position) rfl trivial h

/-- Setting a position loads and unloads nothing. -/
theorem carries_setAbsolutePosition {position : Position}
    (h : b.setAbsolutePosition vm position = .ok b') : b.Carries b' :=
  carries_of_attempt (.setAbsolutePosition vm position) rfl trivial h

/-- Feeding a message loads and unloads nothing. -/
theorem carries_feedMessage {sender : Int} {payload : Bytes}
    (h : b.feedMessage vm sender payload = .ok b') : b.Carries b' :=
  carries_of_attempt (.feedMessage vm sender payload) rfl trivial h

/-- A step loads and unloads nothing. -/
theorem carries_step {fuel : Nat} {outcome : StepOutcome}
    (h : b.step fuel vm = some (.ok (outcome, b'))) : b.Carries b' := by
  have hop : (Operation.step vm).after fuel b = some b' := by
    change (b.step fuel vm).map (fun result => b.attempt (result.map Prod.snd)) = some b'
    rw [h]
    rfl
  exact ⟨.after .refl hop nofun, vmCount_step h⟩

/-- Taking a payload loads and unloads nothing. -/
theorem carries_nextOutbound {payload : Option Bytes}
    (h : b.nextOutbound vm = .ok (payload, b')) : b.Carries b' := by
  refine carries_of_attempt (.nextOutbound vm) rfl trivial ?_
  rw [h]
  rfl

/-- Taking several payloads loads and unloads nothing. -/
theorem carries_takeOutbound {count : Nat} {payloads : List Bytes}
    (h : b.takeOutbound vm count = .ok (payloads, b')) : b.Carries b' := by
  induction count generalizing b payloads with
  | zero =>
    cases h
    exact carries_refl _
  | succ count ih =>
    unfold takeOutbound at h
    cases hnext : b.nextOutbound vm with
    | error e =>
      rw [hnext] at h
      cases h
    | ok next =>
      rw [hnext] at h
      obtain ⟨payload, b₁⟩ := next
      cases payload with
      | none =>
        cases h
        exact carries_nextOutbound hnext
      | some payload =>
        refine (carries_nextOutbound hnext).trans ?_
        simp only [bind, Except.bind] at h
        cases hrest : b₁.takeOutbound vm count with
        | error e =>
          rw [hrest] at h
          cases h
        | ok rest =>
          rw [hrest] at h
          cases h
          exact ih hrest

/-- Taking all payloads loads and unloads nothing. -/
theorem carries_drainOutbound {payloads : List Bytes}
    (h : b.drainOutbound vm = .ok (payloads, b')) : b.Carries b' := by
  unfold drainOutbound at h
  cases hfind : b.find vm with
  | error e =>
    rw [hfind] at h
    cases h
  | ok i =>
    rw [hfind] at h
    exact carries_takeOutbound h

/-- A machine stays loaded while nothing is unloaded. -/
theorem Stays.exists_find (h : b.Stays b') (hfind : b.find vm = .ok i) :
    ∃ i', b'.find vm = .ok i' := by
  induction h with
  | refl => exact ⟨i, hfind⟩
  | after _ hop hkeep ih =>
    obtain ⟨i', hfind'⟩ := ih
    exact exists_find_after hop hkeep hfind'

/-- A loaded machine has stopped just if it is not ready. -/
theorem isStopped_of_find (hfind : b.find vm = .ok i) : b.isStopped vm = !i.machine.isReady := by
  have hinstance : b.instance? vm = some i := getElem?_of_find hfind
  unfold isStopped
  rw [hinstance]

/-- A machine that has stopped for good does not come back. -/
theorem Stays.isStopped (h : b.Stays b') (hfind : b.find vm = .ok i)
    (hstopped : b.isStopped vm = true) : b'.isStopped vm = true := by
  rw [isStopped_of_find hfind, Bool.not_eq_true'] at hstopped
  obtain ⟨i', hfind', hsame⟩ := h.exists_sameFault hfind hstopped
  rw [isStopped_of_find hfind', hsame.isReady_eq, hstopped]
  rfl

/-- A step has the outcome that its machine shows afterwards. -/
theorem Reachable.ready_iff (hb : b.Reachable) {fuel : Nat} {outcome : StepOutcome}
    (h : b.step fuel vm = some (.ok (outcome, b'))) :
    outcome = .ready ↔ b'.isStopped vm = false := by
  obtain ⟨i, i', world, hfind, hstep, rfl⟩ := exists_of_step h
  obtain ⟨_, _, hends⟩ := (hb.registered.consistent i (mem_of_find hfind)).step b.hooks fuel b.world
  obtain ⟨_, _, _, rfl⟩ := hends _ _ _ hstep
  have hfind' : Bridge.find { b.replace vm i' with world } vm = .ok i' := find_replace hfind rfl
  rw [i'.outcome_eq_ready_iff, isStopped_of_find hfind', Bool.not_eq_false']

/-- A change of a store stops no machine. -/
theorem isStopped_adjust {f : Store Native → Store Native} {other : Handle} :
    (b.adjust vm f).isStopped other = b.isStopped other := by
  by_cases hvm : vm = other
  · subst hvm
    unfold isStopped
    rw [instance?_adjust_self]
    cases b.instance? vm <;> rfl
  · unfold isStopped
    rw [instance?_adjust_ne hvm]

end Bridge

namespace Ticking

variable {σ α β : Type} {work : Ticking σ α} {next : α → Ticking σ β}

/-- Whatever the work does with the bridge, it loads and unloads nothing. -/
def Carries (work : Ticking σ α) : Prop :=
  ∀ s, Work.Ends work s (fun _ s' => s.bridge.Carries s'.bridge)
    fun _ s' => s.bridge.Carries s'.bridge

/-- Doing nothing loads and unloads nothing. -/
theorem carries_pure (a : α) : Carries (pure a : Ticking σ α) :=
  fun _ => Work.ends_pure (Bridge.carries_refl _)

/-- Two pieces of work that load and unload nothing do so one after the other. -/
theorem Carries.bind (h : Carries work) (hnext : ∀ a, Carries (next a)) :
    Carries (work >>= next) := by
  intro s answer hanswer
  rw [Work.bind_eq] at hanswer
  obtain ⟨⟨result, s₁⟩, hwork, hrest⟩ := Option.bind_eq_some_iff.mp hanswer
  match result with
  | .ok a =>
    have hfirst : s.bridge.Carries s₁.bridge := (h s).ok hwork
    have hsecond := hnext a s₁ answer hrest
    match answer with
    | (.ok _, _) => exact hfirst.trans hsecond
    | (.error _, _) => exact hfirst.trans hsecond
  | .error e =>
    cases hrest
    exact (h s).error hwork

/-- A loop over work that loads and unloads nothing. -/
theorem carries_forIn {γ : Type} {body : γ → PUnit → Ticking σ (ForInStep PUnit)}
    (hbody : ∀ x, Carries (body x ⟨⟩)) (xs : List γ) : Carries (forIn xs ⟨⟩ body) := by
  induction xs with
  | nil => exact carries_pure _
  | cons x rest ih =>
    rw [List.forIn_cons]
    refine (hbody x).bind fun next => ?_
    cases next with
    | done => exact carries_pure _
    | yield => exact ih

/-- A change of the bridge in a tick. -/
theorem carries_change {f : Bridge σ → Except BridgeError (Bridge σ)}
    (hf : ∀ b b', f b = .ok b' → b.Carries b') : Carries (change f) := by
  intro s answer hanswer
  unfold change at hanswer
  split at hanswer <;> cases hanswer
  · exact hf _ _ ‹_›
  · exact Bridge.carries_refl _

/-- A change of the bridge in a tick, with a result. -/
theorem carries_take {f : Bridge σ → Except BridgeError (α × Bridge σ)}
    (hf : ∀ b a b', f b = .ok (a, b') → b.Carries b') : Carries (take f) := by
  intro s answer hanswer
  unfold take at hanswer
  split at hanswer <;> cases hanswer
  · exact hf _ _ _ ‹_›
  · exact Bridge.carries_refl _

/-- The step of a machine in a tick loads and unloads nothing. -/
theorem carries_step (fuel : Nat) (vm : Handle) : Carries (step (σ := σ) fuel vm) := by
  intro s answer hanswer
  obtain ⟨result, hresult, rfl⟩ := Option.map_eq_some_iff.mp hanswer
  match result with
  | .ok (outcome, b') => exact Bridge.carries_step hresult
  | .error e => exact Bridge.carries_refl _

/-- Work on the tick alone. -/
theorem carries_modifyGet {f : TickState σ → α × TickState σ}
    (hf : ∀ s, (f s).2.bridge = s.bridge) : Carries (modifyGet f) := by
  intro s answer hanswer
  cases hanswer
  change s.bridge.Carries (f s).2.bridge
  rw [hf]
  exact Bridge.carries_refl _

/-- A question to the bridge changes nothing. -/
theorem carries_ask {f : Bridge σ → Except BridgeError α} : Carries (ask f) := by
  intro s answer hanswer
  cases hanswer
  show Work.Answers _ _ (f s.bridge, s)
  cases f s.bridge <;> exact Bridge.carries_refl _

end Ticking

namespace Hub

variable {σ : Type} {h : Hub} {fuel : Nat} {b b' : Bridge σ} {agent : Agent} {agents : List Agent}
  {s : TickState σ}

/-- Discarding mail loads and unloads nothing. -/
theorem carries_discardMail (agent : Agent) : Ticking.Carries (discardMail (σ := σ) agent) := by
  rw [discardMail_eq]
  refine (Ticking.carries_modifyGet fun _ => rfl).bind fun mail => ?_
  refine Ticking.carries_change fun b b' hb' => ?_
  cases hb'
  unfold discarded
  cases mail with
  | none => exact Bridge.carries_refl _
  | some messages => exact Bridge.carries_world _

/-- Preparing an agent loads and unloads nothing. -/
theorem carries_prepare (h : Hub) (agent : Agent) : Ticking.Carries (h.prepare (σ := σ) agent) := by
  refine (Ticking.carries_change fun _ _ => Bridge.carries_resetNeighbors).bind fun _ => ?_
  refine (Ticking.carries_forIn (fun other => ?_) _).bind fun _ => ?_
  · exact (Ticking.carries_change fun _ _ => Bridge.carries_addNeighbor).bind fun _ =>
      Ticking.carries_pure _
  refine (Ticking.carries_change fun _ _ => Bridge.carries_setAbsolutePosition).bind fun _ => ?_
  refine (Ticking.carries_modifyGet fun _ => rfl).bind fun mail => ?_
  refine (Ticking.carries_forIn (fun message => ?_) _).bind fun _ => Ticking.carries_pure _
  exact (Ticking.carries_change fun _ _ => Bridge.carries_feedMessage).bind fun _ =>
    Ticking.carries_pure _

/-- Routing what an agent has sent loads and unloads nothing. -/
theorem carries_route (h : Hub) (agent : Agent) : Ticking.Carries (h.route (σ := σ) agent) := by
  refine (Ticking.carries_take fun _ _ _ => Bridge.carries_drainOutbound).bind fun sent => ?_
  refine (Ticking.carries_forIn (fun payload => ?_) _).bind fun _ => Ticking.carries_pure _
  refine (Ticking.carries_forIn (fun receiver => ?_) _).bind fun _ => Ticking.carries_pure _
  refine (Ticking.carries_modifyGet fun _ => rfl).bind fun _ => ?_
  exact (Ticking.carries_modifyGet fun _ => rfl).bind fun _ => Ticking.carries_pure _

/-- A visit loads and unloads nothing. -/
theorem carries_visit (h : Hub) (fuel : Nat) (agent : Agent) :
    Ticking.Carries (h.visit (σ := σ) fuel agent) := by
  refine Ticking.carries_ask.bind fun stopped => ?_
  split
  · exact (carries_discardMail agent).bind fun _ => Ticking.carries_modifyGet fun _ => rfl
  · refine (h.carries_prepare agent).bind fun _ => ?_
    refine (Ticking.carries_step fuel agent.vm).bind fun outcome => ?_
    cases outcome with
    | ready => exact (Ticking.carries_modifyGet fun _ => rfl).bind fun _ => h.carries_route agent
    | faulted _ => exact Ticking.carries_modifyGet fun _ => rfl

section Counting

/-- What a visit has made of the count: the agent is counted as faulted if its machine has stopped
by the end of the visit, and then it has sent nothing; otherwise it is counted as stepped. -/
structure Counts (agent : Agent) (s s' : TickState σ) : Prop where
  faulted : s'.report.faulted = s.report.faulted + (s'.bridge.isStopped agent.vm).toNat
  stepped : s'.report.stepped = s.report.stepped + (!s'.bridge.isStopped agent.vm).toNat
  silent : s'.bridge.isStopped agent.vm = true →
    s'.pending = s.pending ∧ s'.report.routed = s.report.routed

/-- The tick after the visit of an agent that has stopped. -/
def passedOver (agent : Agent) (s : TickState σ) : TickState σ :=
  { s with
    bridge := discarded agent s.inbox[agent.contextId]? s.bridge
    inbox := s.inbox.erase agent.contextId
    report := { s.report with faulted := s.report.faulted + 1 } }

/-- Discarding mail leaves all machines as they are. -/
theorem instances_discarded (mail : Option (List Message)) :
    (discarded agent mail b).instances = b.instances := by
  unfold discarded
  cases mail <;> rfl

/-- Discarding mail stops no machine. -/
theorem isStopped_discarded (mail : Option (List Message)) (vm : Handle) :
    (discarded agent mail b).isStopped vm = b.isStopped vm := by
  unfold Bridge.isStopped Bridge.instance?
  rw [instances_discarded]

/-- Asking whether a loaded machine is done has an answer. -/
theorem ask_done (hloaded : agent.vm.index < s.bridge.vmCount) :
    Ticking.ask (fun b => b.done agent.vm) s = some (.ok (s.bridge.isStopped agent.vm), s) := by
  rw [← Bridge.done_of_lt hloaded]
  rfl

/-- A visit of an agent that has stopped passes over it. -/
theorem visit_of_stopped (hloaded : agent.vm.index < s.bridge.vmCount)
    (hstopped : s.bridge.isStopped agent.vm = true) :
    h.visit fuel agent s = some (.ok (), passedOver agent s) := by
  unfold visit
  rw [Work.bind_ok (ask_done hloaded), if_pos hstopped, discardMail_eq]
  rfl

/-- The visit of a loaded agent counts it once. -/
theorem ends_visit_counts (h : Hub) (fuel : Nat) (hb : s.bridge.Reachable)
    (hloaded : agent.vm.index < s.bridge.vmCount) :
    Work.Ends (h.visit fuel agent) s (fun _ s' => Counts agent s s') fun _ _ => False := by
  by_cases hstopped : s.bridge.isStopped agent.vm = true
  · refine Work.ends_of_eq (visit_of_stopped hloaded hstopped) ?_
    have hstopped' : (passedOver agent s).bridge.isStopped agent.vm = true :=
      (isStopped_discarded _ _).trans hstopped
    refine ⟨?_, ?_, fun _ => ⟨rfl, rfl⟩⟩ <;> rw [hstopped'] <;> rfl
  · have hprepared : (h.prepared agent s).bridge.Reachable :=
      hb.stays ((h.carries_prepare agent s).ok (prepare_eq hloaded)).stays
    have hloaded' : agent.vm.index < (h.prepared agent s).bridge.vmCount :=
      hloaded.trans_eq Bridge.vmCount_adjust.symm
    obtain ⟨i, hfind⟩ := Bridge.exists_find_of_lt hloaded'
    unfold visit
    intro answer hanswer
    rw [Work.bind_ok (ask_done hloaded), if_neg hstopped, Work.bind_ok (prepare_eq hloaded)]
      at hanswer
    refine (ends_step hfind).bind ?_ answer hanswer
    rintro outcome s₂ ⟨hstep, _, _, hagrees⟩
    have hfaulted : s₂.report.faulted = s.report.faulted :=
      congrArg TickReport.faulted hagrees.report
    have hstepped : s₂.report.stepped = s.report.stepped :=
      congrArg TickReport.stepped hagrees.report
    have hready := hprepared.ready_iff hstep
    have hloaded₂ : agent.vm.index < s₂.bridge.vmCount := by rwa [Bridge.vmCount_step hstep]
    cases outcome with
    | ready =>
      let counted : TickState σ :=
        { s₂ with report := { s₂.report with stepped := s₂.report.stepped + 1 } }
      have hgoes : (h.routed agent counted).bridge.isStopped agent.vm = false :=
        Bridge.isStopped_adjust.trans (hready.mp rfl)
      apply Work.ends_modify_bind
      refine Work.ends_of_eq (route_eq hloaded₂) ⟨?_, ?_, fun hstopped' => ?_⟩
      · rw [hgoes]
        exact hfaulted
      · rw [hgoes]
        exact congrArg (· + 1) hstepped
      · cases hgoes.symm.trans hstopped'
    | faulted diagnosis =>
      have hstops : s₂.bridge.isStopped agent.vm = true := by
        rw [← Bool.not_eq_false]
        exact fun hgoes => nomatch hready.mpr hgoes
      refine Work.ends_modify ⟨?_, ?_, fun _ => ⟨hagrees.pending, ?_⟩⟩
      · rw [hstops]
        exact congrArg (· + 1) hfaulted
      · rw [hstops]
        exact hstepped
      · have hrouted : s₂.report.routed = s.report.routed :=
          congrArg TickReport.routed hagrees.report
        exact hrouted

end Counting

section Tallying

/-- Visits of agents in their order. The answer tells for each of them whether it was counted as
faulted. -/
def tally (h : Hub) (fuel : Nat) : List Agent → Ticking σ (List Bool)
  | [] => return []
  | agent :: rest => do
    let before ← get
    h.visit fuel agent
    let after ← get
    let verdicts ← h.tally fuel rest
    return decide (before.report.faulted < after.report.faulted) :: verdicts

/-- Keeping a tally changes nothing. -/
theorem visits_eq_tally (h : Hub) (fuel : Nat) (agents : List Agent) :
    (h.visits fuel agents : Ticking σ Unit) = h.tally fuel agents >>= fun _ => pure () := by
  induction agents with
  | nil => rfl
  | cons agent rest ih =>
    have hvisits : (h.visits fuel (agent :: rest) : Ticking σ Unit) =
        h.visit fuel agent >>= fun _ => h.visits fuel rest := by
      simp only [visits, List.forIn_cons, bind_assoc, pure_bind]
    have htally : (h.tally fuel (agent :: rest) >>= fun _ => pure () : Ticking σ Unit) =
        get >>= fun _ => h.visit fuel agent >>= fun _ => get >>= fun _ =>
          h.tally fuel rest >>= fun _ => pure () := by
      simp only [tally, bind_assoc, pure_bind]
    rw [hvisits, htally, ih]
    rfl

/-- What visits have made of the count: a machine that had stopped before is counted as faulted,
and a machine that is counted as faulted has stopped. -/
structure Tallied (agents : List Agent) (s : TickState σ) (verdicts : List Bool)
    (s' : TickState σ) : Prop where
  carries : s.bridge.Carries s'.bridge
  length : verdicts.length = agents.length
  faulted : s'.report.faulted = s.report.faulted + verdicts.count true
  stepped : s'.report.stepped = s.report.stepped + verdicts.count false
  silent : false ∉ verdicts → s'.pending = s.pending ∧ s'.report.routed = s.report.routed
  before : ∀ (k : Nat) (agent : Agent), agents[k]? = some agent →
    s.bridge.isStopped agent.vm = true → verdicts[k]? = some true
  after : ∀ (k : Nat) (agent : Agent), agents[k]? = some agent →
    verdicts[k]? = some true → s'.bridge.isStopped agent.vm = true

/-- Without agents there is nothing to count. -/
theorem tallied_nil : Tallied [] s [] s where
  carries := Bridge.carries_refl _
  length := rfl
  faulted := rfl
  stepped := rfl
  silent _ := ⟨rfl, rfl⟩
  before _ _ h := nomatch h
  after _ _ h := nomatch h

/-- The verdict on an agent is whether its machine has stopped. -/
theorem Counts.verdict {s' : TickState σ} (h : Counts agent s s') :
    decide (s.report.faulted < s'.report.faulted) = s'.bridge.isStopped agent.vm := by
  rw [h.faulted]
  cases s'.bridge.isStopped agent.vm <;> simp

/-- One more agent is visited before the others. -/
theorem Tallied.cons {s₁ s' : TickState σ} {verdicts : List Bool} (hcounts : Counts agent s s₁)
    (hcarries : s.bridge.Carries s₁.bridge)
    (hloaded : ∀ other ∈ agent :: agents, ∃ i, s.bridge.find other.vm = .ok i)
    (h : Tallied agents s₁ verdicts s') :
    Tallied (agent :: agents) s (s₁.bridge.isStopped agent.vm :: verdicts) s' where
  carries := hcarries.trans h.carries
  length := by rw [List.length_cons, List.length_cons, h.length]
  faulted := by
    rw [h.faulted, hcounts.faulted, List.count_cons]
    cases s₁.bridge.isStopped agent.vm <;> simp [Nat.add_right_comm, Nat.add_assoc]
  stepped := by
    rw [h.stepped, hcounts.stepped, List.count_cons]
    cases s₁.bridge.isStopped agent.vm <;> simp [Nat.add_right_comm, Nat.add_assoc]
  silent hnone := by
    have hstopped : s₁.bridge.isStopped agent.vm = true := by
      by_contra hgoes
      exact hnone (by simp [Bool.eq_false_of_not_eq_true hgoes])
    obtain ⟨hpending, hrouted⟩ := h.silent fun hmem => hnone (List.mem_cons_of_mem _ hmem)
    obtain ⟨hpending₁, hrouted₁⟩ := hcounts.silent hstopped
    exact ⟨hpending.trans hpending₁, hrouted.trans hrouted₁⟩
  before k other hk hstopped := by
    obtain ⟨i, hfind⟩ := hloaded other (List.mem_of_getElem? hk)
    have hstopped₁ := hcarries.stays.isStopped hfind hstopped
    cases k with
    | zero =>
      cases hk
      exact congrArg some hstopped₁
    | succ k => exact h.before k other hk hstopped₁
  after k other hk hverdict := by
    cases k with
    | zero =>
      cases hk
      obtain ⟨i, hfind⟩ := hloaded agent List.mem_cons_self
      obtain ⟨i₁, hfind₁⟩ := hcarries.stays.exists_find hfind
      exact h.carries.stays.isStopped hfind₁ (Option.some.inj hverdict)
    | succ k => exact h.after k other hk hverdict

/-- Visits of loaded agents count every one of them. -/
theorem ends_tally (h : Hub) (fuel : Nat) (hb : s.bridge.Reachable)
    (hloaded : ∀ agent ∈ agents, ∃ i, s.bridge.find agent.vm = .ok i) :
    Work.Ends (h.tally fuel agents) s (fun verdicts s' => Tallied agents s verdicts s')
      fun _ _ => False := by
  induction agents generalizing s with
  | nil => exact Work.ends_pure tallied_nil
  | cons agent rest ih =>
    obtain ⟨⟨i, hfind⟩, hrest⟩ := List.forall_mem_cons.mp hloaded
    have hcounts := h.ends_visit_counts fuel hb (Bridge.lt_vmCount_of_find hfind)
    have hvisit := hcounts.and (h.carries_visit fuel agent s)
    unfold tally
    apply Work.ends_get_bind
    refine (hvisit.imp (fun _ _ hends => hends) fun _ _ hfails => hfails.1).bind ?_
    rintro _ s₁ ⟨hcounts, hcarries⟩
    apply Work.ends_get_bind
    have hrest₁ : ∀ agent ∈ rest, ∃ i, s₁.bridge.find agent.vm = .ok i := by
      intro other hother
      obtain ⟨j, hj⟩ := hrest other hother
      exact hcarries.stays.exists_find hj
    refine (ih (hb.stays hcarries.stays) hrest₁).bind fun verdicts s' htallied => ?_
    rw [hcounts.verdict]
    exact Work.ends_pure (.cons hcounts hcarries hloaded htallied)

end Tallying

end Hub

end Swarm
