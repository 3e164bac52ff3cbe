import Swarm.Proofs.Routing

/-!
# Ticks in phases

A tick visits the agents one after the other: each one is prepared, takes its step
and has what it has sent routed before the next one is looked at. A tick in phases
prepares all agents first, then lets all of them take their steps, and routes what
they have sent at the end. Both are the same, because no agent can notice that the
others have been prepared earlier or that their payloads are routed later.
-/

namespace Swarm

variable {σ : Type}

/-- What an agent does in a tick once all agents are prepared. -/
inductive Part where
  /-- It has stopped; mail that has come for it is discarded. -/
  | stopped (mail : Option (List Message))
  /-- It takes a step. -/
  | playing

namespace Hub

variable {h : Hub} {fuel : Nat} {b : Bridge σ} {agent other : Agent} {agents : List Agent}
  {s t : TickState σ}

section Phases

/-- The first phase for an agent: it is prepared unless it had stopped when the tick began. -/
def equip (h : Hub) (start : Bridge σ) (agent : Agent) : Ticking σ Part := do
  if ← Ticking.ask fun _ => start.done agent.vm then
    return .stopped (← Ticking.takeMail agent.contextId)
  else
    h.prepare agent
    return .playing

/-- The first phase. -/
def equipAll (h : Hub) (start : Bridge σ) : List Agent → Ticking σ (List (Agent × Part))
  | [] => return []
  | agent :: rest => do
    let part ← h.equip start agent
    let parts ← h.equipAll start rest
    return (agent, part) :: parts

/-- The second phase for an agent; the answer is whether it can go on. -/
def play (fuel : Nat) (agent : Agent) : Part → Ticking σ Bool
  | .stopped mail => do
    Ticking.change fun b => .ok (discarded agent mail b)
    Ticking.count fun r => { r with faulted := r.faulted + 1 }
    return false
  | .playing => do
    match ← Ticking.step fuel agent.vm with
    | .ready =>
      Ticking.count fun r => { r with stepped := r.stepped + 1 }
      return true
    | .faulted _ =>
      Ticking.count fun r => { r with faulted := r.faulted + 1 }
      return false

/-- The second phase; the answer has the agents that can go on. -/
def playAll (fuel : Nat) : List (Agent × Part) → Ticking σ (List Agent)
  | [] => return []
  | (agent, part) :: parts => do
    let ready ← play fuel agent part
    let others ← playAll fuel parts
    return if ready then agent :: others else others

/-- The third phase. -/
def routeAll (h : Hub) : List Agent → Ticking σ Unit
  | [] => return
  | agent :: rest => do
    h.route agent
    h.routeAll rest

/-- The three phases one after the other. -/
def inPhases (h : Hub) (fuel : Nat) (start : Bridge σ) (agents : List Agent) : Ticking σ Unit := do
  let parts ← h.equipAll start agents
  let ready ← playAll fuel parts
  h.routeAll ready

/-- One tick in phases. -/
def tickInPhases (h : Hub) (fuel : Nat) (b : Bridge σ) : Option (TickEnding σ) :=
  let phases : Ticking σ Unit := do
    h.inPhases fuel b h.agents
    dropMail
  (phases { bridge := b, inbox := h.pending }).map fun (result, s) =>
    { result := result.map fun _ => s.report
      hub := { h with pending := s.pending }
      bridge := s.bridge }

end Phases

/-- The part of an agent after the first phase. -/
def part (start : Bridge σ) (agent : Agent) (mail : Option (List Message)) : Part :=
  if start.isStopped agent.vm then .stopped mail else .playing

/-- The tick after the first phase for an agent. -/
def equipped (h : Hub) (start : Bridge σ) (agent : Agent) (s : TickState σ) : TickState σ :=
  if start.isStopped agent.vm then { s with inbox := s.inbox.erase agent.contextId }
  else h.prepared agent s

/-- The first phase for a loaded agent answers its part and equips it. -/
theorem equip_eq (hstart : agent.vm.index < b.vmCount)
    (hloaded : agent.vm.index < s.bridge.vmCount) : h.equip b agent s =
      some (.ok (part b agent s.inbox[agent.contextId]?), h.equipped b agent s) := by
  have hask : Ticking.ask (fun _ => b.done agent.vm) s = some (.ok (b.isStopped agent.vm), s) := by
    unfold Ticking.ask
    rw [Bridge.done_of_lt hstart]
  unfold equip part equipped
  rw [Work.bind_ok hask]
  by_cases hstopped : b.isStopped agent.vm
  · simp only [hstopped, if_true]
    rfl
  · simp only [hstopped]
    exact Work.bind_ok (prepare_eq hloaded)

/-- Equipping an agent takes its mail out. -/
theorem inbox_equipped : (h.equipped b agent s).inbox = s.inbox.erase agent.contextId := by
  unfold equipped
  split <;> rfl

/-- Equipping an agent leaves the count of machines. -/
theorem vmCount_equipped : (h.equipped b agent s).bridge.vmCount = s.bridge.vmCount := by
  unfold equipped
  split
  · rfl
  · exact Bridge.vmCount_adjust

/-- Equipping an agent leaves the slots. -/
theorem hooks_equipped : (h.equipped b agent s).bridge.hooks = s.bridge.hooks := by
  unfold equipped
  split <;> rfl

/-- Equipping an agent leaves the other instances. -/
theorem instance?_equipped_ne {vm : Handle} (hne : agent.vm ≠ vm) :
    (h.equipped b agent s).bridge.instance? vm = s.bridge.instance? vm := by
  unfold equipped
  split
  · rfl
  · exact Bridge.instance?_adjust_ne hne

/-- The third phase for an agent, which takes place if it can go on. -/
def routeIf (h : Hub) (agent : Agent) (ready : Bool) : Ticking σ Unit :=
  if ready then h.route agent else return

/-- A visit is the three phases for one agent. -/
theorem visit_eq (hinstance : s.bridge.instance? agent.vm = b.instance? agent.vm) :
    h.visit fuel agent s = (do
      let part ← h.equip b agent
      let ready ← play fuel agent part
      h.routeIf agent ready : Ticking σ Unit) s := by
  have hask : Ticking.ask (fun b => b.done agent.vm) s =
      Ticking.ask (fun _ => b.done agent.vm) s := by
    unfold Ticking.ask Bridge.done
    dsimp only
    rw [Bridge.find_congr hinstance]
  unfold visit equip
  rw [bind_assoc, Work.bind_eq, Work.bind_eq, hask]
  congr 1
  funext ⟨result, s'⟩
  match result with
  | .error e => rfl
  | .ok true =>
    simp only [if_true, discardMail_eq, bind_assoc, pure_bind]
    rfl
  | .ok false =>
    simp only [play, bind_assoc, pure_bind, Bool.false_eq_true, if_false]
    refine congrFun (bind_congr fun _ => bind_congr fun outcome => ?_) s'
    cases outcome <;> rfl

/-- The parts of agents after the first phase. -/
def parts (start : Bridge σ) : List Agent → Mail → List (Agent × Part)
  | [], _ => []
  | agent :: rest, inbox =>
    (agent, part start agent inbox[agent.contextId]?) ::
      parts start rest (inbox.erase agent.contextId)

/-- The tick after the first phase. -/
def equippedAll (h : Hub) (start : Bridge σ) : List Agent → TickState σ → TickState σ
  | [], s => s
  | agent :: rest, s => h.equippedAll start rest (h.equipped start agent s)

/-- The first phase answers the parts of all agents and equips them all. -/
theorem equipAll_eq (hloaded : ∀ agent ∈ agents, agent.vm.index < b.vmCount)
    (hcount : s.bridge.vmCount = b.vmCount) :
    h.equipAll b agents s = some (.ok (parts b agents s.inbox), h.equippedAll b agents s) := by
  induction agents generalizing s with
  | nil => rfl
  | cons agent rest ih =>
    obtain ⟨hagent, hrest⟩ := List.forall_mem_cons.mp hloaded
    have hfirst := equip_eq (h := h) (s := s) hagent (hcount ▸ hagent)
    have hothers := ih (s := h.equipped b agent s) hrest (vmCount_equipped.trans hcount)
    rw [inbox_equipped] at hothers
    unfold equipAll
    rw [Work.bind_ok hfirst, Work.bind_ok hothers]
    rfl

/-- The change does not show in the second phase of an agent. -/
structure Unnoticed (fuel : Nat) (vm : Handle) (g : TickState σ → TickState σ) : Prop where
  step : Work.Passes g (Ticking.step fuel vm)
  report : ∀ level text, Work.Passes g (Ticking.change fun b => .ok (b.report level text))
  stepped : Work.Passes g (Ticking.count fun r => { r with stepped := r.stepped + 1 })
  faulted : Work.Passes g (Ticking.count fun r => { r with faulted := r.faulted + 1 })

/-- What the machine of an agent does not notice may come before or after its step. -/
theorem Unnoticed.play {g : TickState σ → TickState σ} (hg : Unnoticed fuel agent.vm g)
    (part : Part) : Work.Passes g (play fuel agent part) := by
  cases part with
  | stopped mail =>
    have hdiscard : Work.Passes g (Ticking.change fun b => .ok (discarded agent mail b)) := by
      cases mail with
      | none => exact fun _ => rfl
      | some messages => exact hg.report _ _
    exact hdiscard.bind fun _ => hg.faulted.bind fun _ => Work.passes_pure g false
  | playing =>
    refine hg.step.bind fun outcome => ?_
    cases outcome with
    | ready => exact hg.stepped.bind fun _ => Work.passes_pure g true
    | faulted diagnosis => exact hg.faulted.bind fun _ => Work.passes_pure g false

/-- A machine does not notice that another agent is prepared. -/
theorem unnoticed_prepared (hne : other.vm ≠ agent.vm) :
    Unnoticed (σ := σ) fuel agent.vm (h.prepared other) where
  step s := by
    unfold Ticking.step prepared
    dsimp only
    rw [Bridge.step_adjust hne]
    cases s.bridge.step fuel agent.vm with
    | none => rfl
    | some result => cases result <;> rfl
  report _ _ _ := rfl
  stepped _ := rfl
  faulted _ := rfl

/-- A machine does not notice that another agent is equipped. -/
theorem unnoticed_equipped (hne : other.vm ≠ agent.vm) :
    Unnoticed fuel agent.vm (h.equipped b other) := by
  unfold equipped
  by_cases hstopped : b.isStopped other.vm
  · simp only [hstopped, if_true]
    refine ⟨fun s => ?_, fun _ _ _ => rfl, fun _ => rfl, fun _ => rfl⟩
    unfold Ticking.step
    dsimp only
    cases s.bridge.step fuel agent.vm with
    | none => rfl
    | some result => cases result <;> rfl
  · simp only [hstopped]
    exact unnoticed_prepared hne

/-- A machine does not notice that the mail of another agent is routed. -/
theorem unnoticed_routed (hne : other.vm ≠ agent.vm) :
    Unnoticed (σ := σ) fuel agent.vm (h.routed other) where
  step s := by
    unfold Ticking.step routed TickState.send
    dsimp only
    rw [Bridge.step_adjust hne]
    cases hstep : s.bridge.step fuel agent.vm with
    | none => rfl
    | some result =>
      match result with
      | .error e => rfl
      | .ok (outcome, b') =>
        have hsent : b'.outbound other.vm = s.bridge.outbound other.vm :=
          Bridge.outbound_congr (Bridge.instance?_step_ne hstep hne)
        simp only [Option.map_some, hsent]
  report _ _ _ := rfl
  stepped _ := rfl
  faulted _ := rfl

/-- Equipping an agent and routing the mail of another do not interfere. -/
theorem equipped_routed (hne : other.vm ≠ agent.vm) :
    h.equipped b other (h.routed agent s) = h.routed agent (h.equipped b other s) := by
  unfold equipped
  split
  · rfl
  · unfold prepared routed
    dsimp only
    rw [Bridge.outbound_congr (Bridge.instance?_adjust_ne hne)]
    unfold TickState.send
    dsimp only
    rw [Bridge.adjust_comm hne.symm]

section Others

variable {rest : List Agent}

/-- Equipping several agents and routing the mail of another do not interfere. -/
theorem equippedAll_routed (hne : ∀ other ∈ rest, other.vm ≠ agent.vm) :
    h.equippedAll b rest (h.routed agent s) = h.routed agent (h.equippedAll b rest s) := by
  induction rest generalizing s with
  | nil => rfl
  | cons other rest ih =>
    obtain ⟨hother, hrest⟩ := List.forall_mem_cons.mp hne
    unfold equippedAll
    rw [equipped_routed hother, ih hrest]

/-- An agent may play its part before or after the others are equipped. -/
theorem passes_equippedAll (hne : ∀ other ∈ rest, other.vm ≠ agent.vm) (part : Part) :
    Work.Passes (h.equippedAll b rest) (play fuel agent part) := by
  induction rest with
  | nil => exact Work.passes_id _
  | cons other rest ih =>
    obtain ⟨hother, hrest⟩ := List.forall_mem_cons.mp hne
    exact (ih hrest).comp ((unnoticed_equipped hother).play part)

/-- The others may play their parts before or after the mail of an agent is routed. -/
theorem passes_routed (hne : ∀ other ∈ rest, other.vm ≠ agent.vm) (inbox : Mail) :
    Work.Passes (h.routed agent) (playAll (σ := σ) fuel (parts b rest inbox)) := by
  induction rest generalizing inbox with
  | nil => exact Work.passes_pure _ _
  | cons other rest ih =>
    obtain ⟨hother, hrest⟩ := List.forall_mem_cons.mp hne
    exact ((unnoticed_routed hother.symm).play _).bind fun ready =>
      (ih hrest _).bind fun others => Work.passes_pure _ _

end Others

/-- No other machine has changed, and no mail has been taken. -/
structure Confined (vm : Handle) (s t : TickState σ) : Prop where
  inbox : t.inbox = s.inbox
  vmCount : t.bridge.vmCount = s.bridge.vmCount
  hooks : t.bridge.hooks = s.bridge.hooks
  others : ∀ other, other ≠ vm → t.bridge.instance? other = s.bridge.instance? other

/-- Routing the mail of an agent changes nothing but what is its own. -/
theorem Confined.routed (h : Hub) (hplay : Confined agent.vm s t) :
    Confined agent.vm s (h.routed agent t) where
  inbox := hplay.inbox
  vmCount := Bridge.vmCount_adjust.trans hplay.vmCount
  hooks := hplay.hooks
  others other hne := (Bridge.instance?_adjust_ne hne.symm).trans (hplay.others other hne)

/-- A loaded agent plays its part, and changes nothing but what is its own. -/
theorem ends_play (hloaded : agent.vm.index < s.bridge.vmCount) (part : Part) :
    Work.Ends (play fuel agent part) s (fun _ t => Confined agent.vm s t) fun _ _ => False := by
  cases part with
  | stopped mail =>
    intro answer hanswer
    cases mail with
    | none =>
      cases hanswer
      exact ⟨rfl, rfl, rfl, fun _ _ => rfl⟩
    | some messages =>
      cases hanswer
      exact ⟨rfl, rfl, rfl, fun _ _ => rfl⟩
  | playing =>
    obtain ⟨i, hfind⟩ := Bridge.exists_find_of_lt hloaded
    refine (ends_step hfind).bind ?_
    rintro outcome t ⟨hstep, _, hinbox, _⟩
    have hplay : Confined agent.vm s t :=
      ⟨hinbox, Bridge.vmCount_step hstep, Bridge.hooks_step hstep,
        fun other hne => Bridge.instance?_step_ne hstep hne⟩
    cases outcome <;> exact Work.ends_modify_bind (Work.ends_pure { hplay with })

/-- The second phase succeeds; those who can go on are among the agents. -/
theorem ends_playAll (hloaded : ∀ agent ∈ agents, agent.vm.index < s.bridge.vmCount)
    (inbox : Mail) : Work.Ends (playAll fuel (parts b agents inbox)) s
      (fun ready t => ready ⊆ agents ∧ t.bridge.vmCount = s.bridge.vmCount) fun _ _ => False := by
  induction agents generalizing s inbox with
  | nil => exact Work.ends_pure ⟨List.Subset.refl _, rfl⟩
  | cons agent rest ih =>
    obtain ⟨hagent, hrest⟩ := List.forall_mem_cons.mp hloaded
    refine (ends_play hagent _).bind fun ready t hplay => ?_
    refine (ih (s := t) (by rwa [hplay.vmCount]) _).bind fun others u ⟨hothers, hcount⟩ => ?_
    refine Work.ends_pure ⟨?_, hcount.trans hplay.vmCount⟩
    split
    · exact List.cons_subset_cons _ hothers
    · exact List.subset_cons_of_subset _ hothers

/-- Equipping agents leaves the count of machines. -/
theorem vmCount_equippedAll : (h.equippedAll b agents s).bridge.vmCount = s.bridge.vmCount := by
  induction agents generalizing s with
  | nil => rfl
  | cons agent rest ih => exact ih.trans vmCount_equipped

/-- Visiting agents visits the first one and then the others. -/
theorem visits_cons : (h.visits fuel (agent :: agents) : Ticking σ Unit) =
    h.visit fuel agent >>= fun _ => h.visits fuel agents := by
  simp only [visits, List.forIn_cons, bind_assoc, pure_bind]

/-- After the first phase come the two others, on agents that are all equipped. -/
theorem inPhases_eq (hloaded : ∀ agent ∈ agents, agent.vm.index < b.vmCount)
    (hcount : s.bridge.vmCount = b.vmCount) :
    h.inPhases fuel b agents s =
      (playAll fuel (parts b agents s.inbox) >>= h.routeAll) (h.equippedAll b agents s) := by
  unfold inPhases
  rw [Work.bind_ok (equipAll_eq hloaded hcount)]

/-- What is left of the phases when all agents are prepared and one has played. -/
def finish (h : Hub) (fuel : Nat) (agent : Agent) (theirs : List (Agent × Part)) (ready : Bool) :
    Ticking σ Unit := do
  let others ← playAll fuel theirs
  h.routeAll (if ready then agent :: others else others)

/-- The phases for a first agent and others can begin with the part of the first one. -/
theorem inPhases_cons (hloaded : ∀ other ∈ agent :: agents, other.vm.index < b.vmCount)
    (hcount : s.bridge.vmCount = b.vmCount) :
    h.inPhases fuel b (agent :: agents) s =
      (play fuel agent (part b agent s.inbox[agent.contextId]?) >>=
        h.finish fuel agent (parts b agents (s.inbox.erase agent.contextId)))
        (h.equippedAll b agents (h.equipped b agent s)) := by
  rw [inPhases_eq hloaded hcount, parts, playAll, bind_assoc]
  simp only [bind_assoc, pure_bind]
  rfl

/-- What an agent has sent may be routed before the others play or after that. -/
theorem routed_first {rest : List Agent} (hne : ∀ other ∈ rest, other.vm ≠ agent.vm)
    (hloaded : ∀ other ∈ agent :: rest, other.vm.index < s.bridge.vmCount) (inbox : Mail) :
    (playAll fuel (parts b rest inbox) >>= h.routeAll) (h.routed agent s) =
      h.finish fuel agent (parts b rest inbox) true s := by
  obtain ⟨hagent, hrest⟩ := List.forall_mem_cons.mp hloaded
  rw [(passes_routed hne inbox).bind_eq (ends_playAll hrest inbox)]
  refine (ends_playAll hrest inbox).bind_congr fun others t ⟨_, hcount⟩ => ?_
  have hroute : (h.route agent >>= fun _ => h.routeAll others) t =
      h.routeAll others (h.routed agent t) := Work.bind_ok (route_eq (hcount ▸ hagent))
  exact hroute.symm

/-- If the others go through the phases after the play of an agent, they may be prepared before
what it has sent is routed. -/
theorem equipped_first {rest : List Agent} {inbox : Mail}
    (hne : ∀ other ∈ rest, other.vm ≠ agent.vm)
    (hloaded : ∀ other ∈ agent :: rest, other.vm.index < t.bridge.vmCount)
    (hphases : ∀ u, Confined agent.vm s u → h.visits fuel rest u =
      (playAll fuel (parts b rest inbox) >>= h.routeAll) (h.equippedAll b rest u))
    (hplay : Confined agent.vm s t) (ready : Bool) :
    (h.routeIf agent ready >>= fun _ => h.visits fuel rest) t =
      h.finish fuel agent (parts b rest inbox) ready (h.equippedAll b rest t) := by
  cases ready with
  | false => exact hphases t hplay
  | true =>
    have hroute := route_eq (h := h) (hloaded agent List.mem_cons_self)
    calc
      (h.routeIf agent true >>= fun _ => h.visits fuel rest) t
      _ = h.visits fuel rest (h.routed agent t) := Work.bind_ok hroute
      _ = (playAll fuel (parts b rest inbox) >>= h.routeAll)
            (h.routed agent (h.equippedAll b rest t)) := by
        rw [hphases _ (hplay.routed h), equippedAll_routed hne]
      _ = h.finish fuel agent (parts b rest inbox) true (h.equippedAll b rest t) :=
        routed_first hne (by rwa [vmCount_equippedAll]) inbox

/-- The visits of agents are the three phases for all of them, if their machines are still as they
were when the tick began. -/
theorem visits_eq (hloaded : ∀ agent ∈ agents, agent.vm.index < b.vmCount)
    (hvms : (agents.map Agent.vm).Nodup) (hcount : s.bridge.vmCount = b.vmCount)
    (hsame : ∀ agent ∈ agents, s.bridge.instance? agent.vm = b.instance? agent.vm) :
    h.visits fuel agents s = h.inPhases fuel b agents s := by
  induction agents generalizing s with
  | nil => rfl
  | cons agent rest ih =>
    obtain ⟨hagent, hrest⟩ := List.forall_mem_cons.mp hloaded
    obtain ⟨hinstance, hothers⟩ := List.forall_mem_cons.mp hsame
    have hne : ∀ other ∈ rest, other.vm ≠ agent.vm := ne_of_nodup_cons hvms
    let mine := part b agent s.inbox[agent.contextId]?
    let theirs := parts b rest (s.inbox.erase agent.contextId)
    let s₁ := h.equipped b agent s
    have hcount₁ : s₁.bridge.vmCount = b.vmCount := vmCount_equipped.trans hcount
    have hequip : h.equip b agent s = some (.ok mine, s₁) := equip_eq hagent (hcount ▸ hagent)
    have hplay : Work.Ends (play fuel agent mine) s₁ (fun _ t => Confined agent.vm s₁ t)
        fun _ _ => False := ends_play (hcount₁ ▸ hagent) mine
    have hphases (t : TickState σ) (ht : Confined agent.vm s₁ t) : h.visits fuel rest t =
        (playAll fuel theirs >>= h.routeAll) (h.equippedAll b rest t) := by
      have hcount' := ht.vmCount.trans hcount₁
      have hvisits := ih hrest hvms.of_cons hcount' fun other hother =>
        (ht.others _ (hne other hother)).trans
          ((instance?_equipped_ne (hne other hother).symm).trans (hothers other hother))
      rw [hvisits, inPhases_eq hrest hcount', ht.inbox, inbox_equipped]
    calc
      h.visits fuel (agent :: rest) s
      _ = (do
            let ready ← play fuel agent mine
            h.routeIf agent ready
            h.visits fuel rest : Ticking σ Unit) s₁ := by
        rw [visits_cons, Work.bind_eq, visit_eq hinstance, ← Work.bind_eq, bind_assoc,
          Work.bind_ok hequip, bind_assoc]
      _ = (do
            let ready ← play fuel agent mine
            modify (h.equippedAll b rest)
            h.finish fuel agent theirs ready : Ticking σ Unit) s₁ :=
        hplay.bind_congr fun ready t ht =>
          equipped_first hne (by rwa [ht.vmCount, hcount₁]) hphases ht ready
      _ = (play fuel agent mine >>= h.finish fuel agent theirs) (h.equippedAll b rest s₁) :=
        ((passes_equippedAll hne mine).bind_eq hplay).symm
      _ = h.inPhases fuel b (agent :: rest) s := (inPhases_cons hloaded hcount).symm

/-- A part has no ending only where the step of the machine has none. -/
theorem of_play_none {mail : Option (List Message)} (hloaded : agent.vm.index < s.bridge.vmCount)
    (hnone : play fuel agent (part b agent mail) s = none) :
    b.isStopped agent.vm = false ∧ ∃ i, s.bridge.instance? agent.vm = some i ∧
      i.step s.bridge.hooks fuel s.bridge.world = none := by
  unfold part at hnone
  by_cases hstopped : b.isStopped agent.vm
  · rw [if_pos hstopped] at hnone
    cases hnone
  · rw [if_neg hstopped] at hnone
    refine ⟨by simpa using hstopped, ?_⟩
    rcases Work.of_bind_none hnone with hstep | ⟨outcome, t, _, hcount⟩
    · obtain ⟨i, hfind⟩ := Bridge.exists_find_of_lt hloaded
      have hstep := Option.map_eq_none_iff.mp hstep
      rw [Bridge.step_of_find hfind] at hstep
      exact ⟨i, Bridge.getElem?_of_find hfind, Option.map_eq_none_iff.mp hstep⟩
    · cases outcome <;> cases hcount

/-- If the second phase has no answer, a step of an agent has none. -/
theorem of_playAll_none {inbox : Mail}
    (hloaded : ∀ agent ∈ agents, agent.vm.index < s.bridge.vmCount)
    (hvms : (agents.map Agent.vm).Nodup) (hnone : playAll fuel (parts b agents inbox) s = none) :
    ∃ agent ∈ agents, b.isStopped agent.vm = false ∧ ∃ i world,
      s.bridge.instance? agent.vm = some i ∧ i.step s.bridge.hooks fuel world = none := by
  induction agents generalizing s inbox with
  | nil => cases hnone
  | cons agent rest ih =>
    obtain ⟨hagent, hrest⟩ := List.forall_mem_cons.mp hloaded
    rcases Work.of_bind_none hnone with hplay | ⟨ready, t, hplay, hothers⟩
    · obtain ⟨hstopped, i, hinstance, hstep⟩ := of_play_none hagent hplay
      exact ⟨agent, List.mem_cons_self, hstopped, i, _, hinstance, hstep⟩
    · have hplay := (ends_play hagent _).ok hplay
      rcases Work.of_bind_none hothers with hothers | ⟨others, u, _, hpure⟩
      · obtain ⟨other, hother, hstopped, i, world, hinstance, hstep⟩ :=
          ih (by rwa [hplay.vmCount]) hvms.of_cons hothers
        have hne : other.vm ≠ agent.vm := ne_of_nodup_cons hvms other hother
        rw [hplay.others _ hne] at hinstance
        rw [hplay.hooks] at hstep
        exact ⟨other, List.mem_cons_of_mem _ hother, hstopped, i, world, hinstance, hstep⟩
      · cases hpure

/-- The third phase always succeeds. -/
theorem routeAll_eq (hloaded : ∀ agent ∈ agents, agent.vm.index < s.bridge.vmCount) :
    ∃ t, h.routeAll agents s = some (.ok (), t) := by
  induction agents generalizing s with
  | nil => exact ⟨s, rfl⟩
  | cons agent rest ih =>
    obtain ⟨hagent, hrest⟩ := List.forall_mem_cons.mp hloaded
    have hcount : (h.routed agent s).bridge.vmCount = s.bridge.vmCount := Bridge.vmCount_adjust
    obtain ⟨t, ht⟩ := ih (s := h.routed agent s) (by rwa [hcount])
    exact ⟨t, (Work.bind_ok (route_eq hagent)).trans ht⟩

/-- Equipping agents leaves the slots. -/
theorem hooks_equippedAll : (h.equippedAll b agents s).bridge.hooks = s.bridge.hooks := by
  induction agents generalizing s with
  | nil => rfl
  | cons agent rest ih => exact ih.trans hooks_equipped

/-- Equipping agents leaves the instances of the others. -/
theorem instance?_equippedAll_ne (hne : ∀ other ∈ agents, other.vm ≠ agent.vm) :
    (h.equippedAll b agents s).bridge.instance? agent.vm = s.bridge.instance? agent.vm := by
  induction agents generalizing s with
  | nil => rfl
  | cons other rest ih =>
    obtain ⟨hother, hrest⟩ := List.forall_mem_cons.mp hne
    exact (ih hrest).trans (instance?_equipped_ne hother)

/-- The machine of an agent as it was when the tick began, with what the hub tells it. -/
def briefed (h : Hub) (start : Bridge σ) (agent : Agent) (mail : Option (List Message)) :
    Option Instance :=
  (start.instance? agent.vm).map fun i =>
    { i with machine := i.machine.mapStore (h.briefing agent mail) }

/-- After the first phase an agent that takes a step has been told what the hub knows. -/
theorem instance?_equippedAll (hvms : (agents.map Agent.vm).Nodup)
    (hids : (agents.map Agent.contextId).Nodup) (hagent : agent ∈ agents)
    (hplays : b.isStopped agent.vm = false) :
    (h.equippedAll b agents s).bridge.instance? agent.vm =
      h.briefed s.bridge agent s.inbox[agent.contextId]? := by
  induction agents generalizing s with
  | nil => cases hagent
  | cons first rest ih =>
    rcases List.mem_cons.mp hagent with rfl | hagent
    · have hequipped : h.equipped b agent s = h.prepared agent s := by
        unfold equipped
        rw [hplays]
        rfl
      unfold equippedAll
      rw [instance?_equippedAll_ne (ne_of_nodup_cons hvms), hequipped]
      exact Bridge.instance?_adjust_self
    · have hvm : first.vm ≠ agent.vm := (ne_of_nodup_cons hvms agent hagent).symm
      have hid : first.contextId ≠ agent.contextId := (ne_of_nodup_cons hids agent hagent).symm
      unfold equippedAll
      rw [ih hvms.of_cons hids.of_cons hagent, inbox_equipped, Std.TreeMap.getElem?_erase]
      unfold briefed
      rw [instance?_equipped_ne hvm]
      simp [hid]

/-- A tick in which no agent notices what the others do in it. -/
structure Synchronous (h : Hub) (fuel : Nat) (b : Bridge σ) : Prop where
  /-- It is the tick in phases: its report, its mail for the next tick and its bridge with the
  whole world are the same. -/
  phases : h.tick fuel b = h.tickInPhases fuel b
  /-- It is never broken off. -/
  succeeds : ∀ ending, h.tick fuel b = some ending → ∃ report, ending.result = .ok report
  /-- It has an ending if the fuel is enough for the steps of all agents. -/
  ends : (∀ agent ∈ h.agents, ∀ i, h.briefed b agent h.pending[agent.contextId]? = some i →
    ∀ world, i.step b.hooks fuel world ≠ none) → ∃ ending, h.tick fuel b = some ending
  /-- Whatever the agents before it have done, the machine of an agent is as it was when the tick
  began, and the hub tells it what it would have told it then. -/
  independent : ∀ before agent after s, h.agents = before ++ agent :: after →
    h.visits fuel before { bridge := b, inbox := h.pending } = some (.ok (), s) →
    s.bridge.instance? agent.vm = b.instance? agent.vm ∧
      ∃ s', h.prepare agent s = some (.ok (), s') ∧
        s'.bridge.instance? agent.vm = h.briefed b agent h.pending[agent.contextId]?

/-- The agents of a hub that fits are loaded. -/
theorem Fits.lt_vmCount (hfits : h.Fits b) : ∀ agent ∈ h.agents, agent.vm.index < b.vmCount := by
  intro agent hagent
  obtain ⟨i, hfind⟩ := hfits.loaded agent hagent
  exact Bridge.lt_vmCount_of_find hfind

/-- For a hub that fits, visiting all agents is the three phases. -/
theorem Fits.visitAll_eq (hfits : h.Fits b) :
    h.visitAll fuel { bridge := b, inbox := h.pending } =
      (h.inPhases fuel b h.agents >>= fun _ => dropMail : Ticking σ Unit)
        { bridge := b, inbox := h.pending } := by
  have hvisits : h.visitEach fuel { bridge := b, inbox := h.pending } =
      h.inPhases fuel b h.agents { bridge := b, inbox := h.pending } :=
    visits_eq hfits.lt_vmCount hfits.vms rfl fun _ _ => rfl
  rw [Hub.visitAll_eq, Work.bind_eq, hvisits, ← Work.bind_eq]

/-- Only a step can leave a tick without an ending. -/
theorem Fits.of_tick_none (hfits : h.Fits b) (hnone : h.tick fuel b = none) :
    ∃ agent ∈ h.agents, ∃ i world, h.briefed b agent h.pending[agent.contextId]? = some i ∧
      i.step b.hooks fuel world = none := by
  have hphases := Option.map_eq_none_iff.mp hnone
  rw [hfits.visitAll_eq] at hphases
  rcases Work.of_bind_none hphases with hphases | ⟨_, _, _, hdrop⟩
  · rw [inPhases_eq hfits.lt_vmCount rfl] at hphases
    have hloaded : ∀ agent ∈ h.agents, agent.vm.index <
        (h.equippedAll b h.agents { bridge := b, inbox := h.pending }).bridge.vmCount := by
      rw [vmCount_equippedAll]
      exact hfits.lt_vmCount
    rcases Work.of_bind_none hphases with hplays | ⟨ready, t, hplays, hroutes⟩
    · obtain ⟨agent, hagent, hstopped, i, world, hinstance, hstep⟩ :=
        of_playAll_none hloaded hfits.vms hplays
      rw [instance?_equippedAll hfits.vms hfits.ids hagent hstopped] at hinstance
      rw [hooks_equippedAll] at hstep
      exact ⟨agent, hagent, i, world, hinstance, hstep⟩
    · obtain ⟨hready, hcount⟩ := (ends_playAll hloaded _).ok hplays
      have hloaded' : ∀ agent ∈ ready, agent.vm.index < t.bridge.vmCount := fun agent hagent =>
        hcount ▸ hloaded agent (hready hagent)
      obtain ⟨u, hroutes'⟩ := routeAll_eq (h := h) hloaded'
      rw [hroutes'] at hroutes
      cases hroutes
  · cases hdrop

/-- Interleaved visits come to the same as phases: in a tick no agent notices what the others do,
whatever their scripts and the functions of the host are. -/
theorem Fits.synchronous (hfits : h.Fits b) : h.Synchronous fuel b where
  phases := by
    unfold tick tickInPhases
    rw [hfits.visitAll_eq]
  succeeds ending htick := by
    have hends : Work.Ends (h.visitAll fuel) { bridge := b, inbox := h.pending }
        (fun _ _ => True) fun _ _ => False := by
      rw [Hub.visitAll_eq]
      exact (ends_visitEach hfits).bind fun _ _ _ => Work.ends_modify trivial
    obtain ⟨⟨result, s⟩, hvisits, rfl⟩ := Option.map_eq_some_iff.mp htick
    match result with
    | .ok () => exact ⟨s.report, rfl⟩
    | .error e => exact (hends.error hvisits).elim
  ends hsteps := by
    cases htick : h.tick fuel b with
    | some ending => exact ⟨ending, rfl⟩
    | none =>
      obtain ⟨agent, hagent, i, world, hbriefed, hstep⟩ := hfits.of_tick_none htick
      exact (hsteps agent hagent i hbriefed world hstep).elim
  independent before agent after s hagents hvisits := by
    obtain ⟨dispatches, rfl, hvisited⟩ := (ends_visits hfits hagents.symm).ok hvisits
    obtain ⟨hinstance, hmail⟩ := hvisited.untouched hfits hagents.symm
    obtain ⟨i, hfind⟩ := hfits.loaded agent (by simp [hagents])
    have hloaded := Bridge.lt_vmCount_of_find ((Bridge.find_congr hinstance).trans hfind)
    refine ⟨hinstance, h.prepared agent s, prepare_eq hloaded, ?_⟩
    unfold prepared briefed
    rw [Bridge.instance?_adjust_self, hinstance, hmail]

/-- In the second tick of the three agents that chatter the outer ones and the one between them have
mail, two of them print and send, and the last one fails in the middle of its mail; the tick is
synchronous and has an ending. -/
theorem synchronous_chatting : ∃ (first ending : TickEnding Unit),
    chatting.tick 60 Bridge.chatting = some first ∧
      first.hub.Fits first.bridge ∧ first.hub.Synchronous 60 first.bridge ∧
      first.hub.tick 60 first.bridge = some ending ∧
      ending.result.toOption = some { stepped := 2, faulted := 1, routed := 8 } ∧
      first.bridge.world.output = "hey\nhey\nhey\n" ∧
      ending.bridge.world.output = "hey\nhey\nhey\nhey\nhey\n" := by
  have hcheck : (chatting.tick 60 Bridge.chatting).any (fun first =>
      decide (first.hub.agents = chatting.agents ∧ first.bridge.vmCount = 3 ∧
        first.bridge.world.output = "hey\nhey\nhey\n") &&
      (first.hub.tick 60 first.bridge).any fun ending => decide
        (ending.result.toOption = some { stepped := 2, faulted := 1, routed := 8 } ∧
          ending.bridge.world.output = "hey\nhey\nhey\nhey\nhey\n")) = true := by decide +kernel
  obtain ⟨first, hfirst, hnext⟩ := (Option.any_eq_true _ _).mp hcheck
  obtain ⟨hbegun, hnext⟩ := (Bool.and_eq_true _ _).mp hnext
  obtain ⟨hagents, hloaded, hprinted⟩ := of_decide_eq_true hbegun
  obtain ⟨ending, hending, hat⟩ := (Option.any_eq_true _ _).mp hnext
  obtain ⟨hresult, houtput⟩ := of_decide_eq_true hat
  have hfits := fits_of_agents hagents hloaded
  exact ⟨first, ending, hfirst, hfits, Fits.synchronous hfits, hending, hresult, hprinted, houtput⟩

end Hub

end Swarm
