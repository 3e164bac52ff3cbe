import Swarm.Proofs.Visits

/-!
# Messages are routed exactly once

In a tick every agent plays its part once, in the order of the group. At the end
all mail of the tick before has been taken, and the mail for the next tick has
exactly what the agents have sent: for every receiver the payloads of all agents
that see it, agent by agent and in the order in which each one sent them. So no
mail is ever left over.
-/

namespace Swarm

/-- What an agent has sent in a tick. -/
structure Dispatch where
  agent : Agent
  sent : List Bytes

namespace Hub

variable {σ : Type} {h : Hub} {fuel : Nat} {b b' : Bridge σ} {agent : Agent}
  {mail : Option (List Message)} {sent : List Bytes} {dispatches : List Dispatch}

/-- Agents have loaded machines and ids, each its own. -/
structure Fits (h : Hub) (b : Bridge σ) : Prop where
  vms : (h.agents.map Agent.vm).Nodup
  ids : (h.agents.map Agent.contextId).Nodup
  loaded : ∀ agent ∈ h.agents, ∃ i, b.find agent.vm = .ok i

/-- All mail is for agents of the group. -/
def Addressed (h : Hub) : Prop := ∀ id ∈ h.pending, ∃ agent ∈ h.agents, agent.contextId = id

/-- The mail that the dispatches of a tick make. -/
def outgoing (h : Hub) (dispatches : List Dispatch) : List Letter :=
  dispatches.flatMap fun d => h.letters d.agent d.sent

/-- The agents have played their parts one after the other. -/
inductive Round (h : Hub) (fuel : Nat) (b : Bridge σ) : List Dispatch → Bridge σ → Prop where
  | nil : Round h fuel b [] b
  | snoc {dispatches : List Dispatch} {d : Dispatch} {b' b'' : Bridge σ}
      (hround : Round h fuel b dispatches b')
      (hplays : Plays fuel d.agent h.pending[d.agent.contextId]? b' d.sent b'') :
      Round h fuel b (dispatches ++ [d]) b''

/-- An agent leaves the machines of all others alone. -/
theorem Plays.instance?_eq (hplays : Plays fuel agent mail b sent b') {vm : Handle}
    (hvm : vm ≠ agent.vm) : b'.instance? vm = b.instance? vm := by
  cases hplays with
  | stopped _ _ =>
    unfold discarded
    split <;> rfl
  | faulted _ hfed _ hstep =>
    obtain ⟨i', hstepped⟩ := Bridge.alters_step hfed.after hstep
    exact (hfed.trans hstepped).others vm hvm
  | ready _ hfed _ hstep hfind hdrain =>
    obtain ⟨i', hstepped⟩ := Bridge.alters_step hfed.after hstep
    obtain ⟨b₃, i₃, hdrain', hdrained, _⟩ := Bridge.exists_drained hfind
    rw [hdrain] at hdrain'
    cases hdrain'
    have hothers := hdrained.others vm hvm
    exact hothers.trans ((hfed.trans hstepped).others vm hvm)

/-- Before its part the machine of an agent is as it was at the start of the tick. -/
theorem Round.instance?_eq (hround : h.Round fuel b dispatches b') {vm : Handle}
    (hvm : ∀ d ∈ dispatches, vm ≠ d.agent.vm) : b'.instance? vm = b.instance? vm := by
  induction hround with
  | nil => rfl
  | snoc _ hplays ih =>
    rw [hplays.instance?_eq (hvm _ (by simp))]
    exact ih fun d hd => hvm d (List.mem_append_left _ hd)

/-- Every agent of a round plays its part with the mail of the tick before, on its machine as it
was at the start, and its machine stays as the part leaves it. -/
theorem Round.exists_plays (hround : h.Round fuel b dispatches b')
    (hvms : (dispatches.map fun d => d.agent.vm).Nodup) {d : Dispatch} (hd : d ∈ dispatches) :
    ∃ b₁ b₂ : Bridge σ, Plays fuel d.agent h.pending[d.agent.contextId]? b₁ d.sent b₂ ∧
      b₁.instance? d.agent.vm = b.instance? d.agent.vm ∧
      b'.instance? d.agent.vm = b₂.instance? d.agent.vm := by
  induction hround with
  | nil => cases hd
  | @snoc earlier last b₁ b₂ hround hplays ih =>
    rw [List.map_append, List.nodup_append] at hvms
    obtain ⟨hearlier, _, hdistinct⟩ := hvms
    have hother (d : Dispatch) (hd : d ∈ earlier) : d.agent.vm ≠ last.agent.vm :=
      hdistinct _ (List.mem_map_of_mem hd) _ (by simp)
    rcases List.mem_append.mp hd with hd | hd
    · obtain ⟨b₃, b₄, hplays', hbefore, hafter⟩ := ih hearlier hd
      exact ⟨b₃, b₄, hplays', hbefore, (hplays.instance?_eq (hother d hd)).trans hafter⟩
    · rw [List.mem_singleton.mp hd]
      exact ⟨b₁, b₂, hplays, hround.instance?_eq fun d hd => (hother d hd).symm, rfl⟩

/-- In a list without repetition the first element does not come again. -/
theorem ne_of_nodup_cons {α β : Type} {f : α → β} {x : α} {xs : List α}
    (hnodup : ((x :: xs).map f).Nodup) : ∀ y ∈ xs, f y ≠ f x := by
  intro y hy heq
  rw [List.map_cons, List.nodup_cons] at hnodup
  exact hnodup.1 (heq ▸ List.mem_map_of_mem hy)

/-- In a list without repetition a filter for one element finds it. -/
theorem filter_eq_singleton {α β : Type} [DecidableEq β] {f : α → β} {xs : List α} {x : α}
    (hnodup : (xs.map f).Nodup) (hx : x ∈ xs) : xs.filter (fun y => f y = f x) = [x] := by
  induction xs with
  | nil => cases hx
  | cons y rest ih =>
    rcases List.mem_cons.mp hx with rfl | hx
    · have hrest : rest.filter (fun y => f y = f x) = [] := by
        apply List.filter_eq_nil_iff.mpr
        intro z hz heq
        exact ne_of_nodup_cons hnodup z hz (of_decide_eq_true heq)
      rw [List.filter_cons_of_pos (by simp), hrest]
    · have hne : f y ≠ f x := (ne_of_nodup_cons hnodup x hx).symm
      rw [List.filter_cons_of_neg (by simpa using hne)]
      exact ih hnodup.of_cons hx

/-- A receiver is among the agents that another one sees at most once. -/
theorem filter_neighborsOf (agent : Agent) {receiver : Agent}
    (hids : (h.agents.map Agent.contextId).Nodup) (hreceiver : receiver ∈ h.agents) :
    (h.neighborsOf agent).filter (fun other => other.contextId = receiver.contextId) =
      if h.sees agent receiver then [receiver] else [] := by
  unfold neighborsOf
  rw [List.filter_comm, filter_eq_singleton hids hreceiver, List.filter_singleton,
    cond_eq_ite]

/-- A receiver finds each payload once among the letters of an agent that sees it, and nothing
among those of any other agent. -/
theorem filter_letters {receiver : Agent} (hids : (h.agents.map Agent.contextId).Nodup)
    (hreceiver : receiver ∈ h.agents) :
    ((h.letters agent sent).filter fun letter => letter.1 = receiver.contextId).map Prod.snd =
      if h.sees agent receiver then sent.map fun payload => ⟨agent.contextId, payload⟩
      else [] := by
  have hseen := filter_neighborsOf agent hids hreceiver
  induction sent with
  | nil => simp [letters]
  | cons payload rest ih =>
    have hcons : h.letters agent (payload :: rest) =
        ((h.neighborsOf agent).map fun receiver =>
          (receiver.contextId, ⟨agent.contextId, payload⟩)) ++ h.letters agent rest := rfl
    rw [hcons, List.filter_append, List.map_append, ih, List.filter_map, List.map_map]
    have hcomp : ((fun letter : Letter => decide (letter.1 = receiver.contextId)) ∘
        fun receiver : Agent => (receiver.contextId, (⟨agent.contextId, payload⟩ : Message))) =
        fun other => decide (other.contextId = receiver.contextId) := rfl
    rw [hcomp, hseen]
    split <;> simp

/-- A tick in which some agents have been visited: their mail is gone, and what they have sent is
the mail for the next tick. -/
structure Visited (h : Hub) (fuel : Nat) (b : Bridge σ) (dispatches : List Dispatch)
    (s : TickState σ) : Prop where
  round : h.Round fuel b dispatches s.bridge
  inbox : ∀ id, s.inbox[id]? =
    if id ∈ dispatches.map (fun d => d.agent.contextId) then none else h.pending[id]?
  pending : s.pending = Mail.addAll {} (h.outgoing dispatches)
  routed : s.report.routed = (h.outgoing dispatches).length

/-- The visits of others leave the machine and the mail of an agent as they were at the start. -/
theorem Visited.untouched {s : TickState σ} (hfits : h.Fits b)
    (hvisited : h.Visited fuel b dispatches s) {rest : List Agent}
    (hagents : dispatches.map Dispatch.agent ++ agent :: rest = h.agents) :
    s.bridge.instance? agent.vm = b.instance? agent.vm ∧
      s.inbox[agent.contextId]? = h.pending[agent.contextId]? := by
  have hvms := hfits.vms
  have hids := hfits.ids
  rw [← hagents, List.map_append, List.map_map, List.nodup_append] at hvms hids
  have hid : agent.contextId ∉ dispatches.map fun d => d.agent.contextId := by
    intro hmem
    exact hids.2.2 _ hmem _ (by simp) rfl
  constructor
  · refine hvisited.round.instance?_eq fun d hd => ?_
    exact (hvms.2.2 _ (List.mem_map_of_mem hd) _ (by simp)).symm
  · rw [hvisited.inbox, if_neg hid]

/-- The visit of the next agent. -/
theorem Visited.ends_visit {s : TickState σ} (hfits : h.Fits b)
    (hvisited : h.Visited fuel b dispatches s) {rest : List Agent}
    (hagents : dispatches.map Dispatch.agent ++ agent :: rest = h.agents) :
    Work.Ends (h.visit fuel agent) s
      (fun _ s' => ∃ sent, h.Visited fuel b (dispatches ++ [⟨agent, sent⟩]) s')
      fun _ _ => False := by
  obtain ⟨hinstance, hmail⟩ := hvisited.untouched hfits hagents
  obtain ⟨i, hfind⟩ := hfits.loaded agent (by simp [← hagents])
  have hfind' : s.bridge.find agent.vm = .ok i := (Bridge.find_congr hinstance).trans hfind
  refine (Hub.ends_visit hfind').imp ?_ fun _ _ hfalse => hfalse
  rintro _ s' ⟨sent, hplays, hinbox, hpending, hrouted⟩
  rw [hmail] at hplays
  have houtgoing : h.outgoing (dispatches ++ [⟨agent, sent⟩]) =
      h.outgoing dispatches ++ h.letters agent sent := by simp [outgoing]
  refine ⟨sent, hvisited.round.snoc hplays, ?_, ?_, ?_⟩
  · intro id
    rw [hinbox, Std.TreeMap.getElem?_erase, hvisited.inbox, List.map_append, List.map_singleton]
    by_cases heq : agent.contextId = id
    · simp [heq]
    · simp [heq, Ne.symm heq]
  · rw [hpending, hvisited.pending, houtgoing, Mail.addAll_append]
  · rw [hrouted, hvisited.routed, houtgoing, List.length_append]

/-- The parts of all agents, without the mail that nobody has taken. -/
def visitEach (h : Hub) (fuel : Nat) : Ticking σ Unit := do
  for agent in h.agents do h.visit fuel agent

/-- Visiting all agents ends with the mail that nobody has taken. -/
theorem visitAll_eq :
    (h.visitAll fuel : Ticking σ Unit) = h.visitEach fuel >>= fun _ => dropMail := by
  simp only [visitAll, visitEach, bind_assoc, pure_bind]

/-- Visits of agents in their order. -/
def visits (h : Hub) (fuel : Nat) (agents : List Agent) : Ticking σ Unit := do
  for agent in agents do h.visit fuel agent

/-- The visits of some agents dispatch what they have sent, in their order. -/
theorem ends_visits (hfits : h.Fits b) {before rest : List Agent}
    (hagents : before ++ rest = h.agents) :
    Work.Ends (h.visits fuel before) { bridge := b, inbox := h.pending }
      (fun _ s => ∃ dispatches : List Dispatch,
        dispatches.map Dispatch.agent = before ∧ h.Visited fuel b dispatches s)
      fun _ _ => False := by
  let Going (left : List Agent) (s : TickState σ) : Prop := ∃ dispatches : List Dispatch,
    dispatches.map Dispatch.agent ++ left = before ∧ h.Visited fuel b dispatches s
  have hbegin : Going before { bridge := b, inbox := h.pending } :=
    ⟨[], rfl, .nil, fun _ => rfl, rfl, rfl⟩
  unfold visits
  refine (Work.ends_forIn Going hbegin ?_).bind ?_
  · rintro agent left s ⟨dispatches, hbefore, hvisited⟩
    have hnext : dispatches.map Dispatch.agent ++ agent :: (left ++ rest) = h.agents := by
      rw [← hagents, ← hbefore, List.append_assoc, List.cons_append]
    refine (hvisited.ends_visit hfits hnext).bind fun _ s' ⟨sent, hvisited'⟩ => ?_
    refine Work.ends_pure ⟨rfl, dispatches ++ [⟨agent, sent⟩], ?_, hvisited'⟩
    simpa using hbefore
  · rintro _ s ⟨dispatches, hbefore, hvisited⟩
    exact Work.ends_pure ⟨dispatches, by simpa using hbefore, hvisited⟩

/-- The visits of all agents dispatch what they have sent. -/
theorem ends_visitEach (hfits : h.Fits b) :
    Work.Ends (h.visitEach fuel) { bridge := b, inbox := h.pending }
      (fun _ s => ∃ dispatches : List Dispatch,
        dispatches.map Dispatch.agent = h.agents ∧ h.Visited fuel b dispatches s)
      fun _ _ => False :=
  ends_visits hfits (List.append_nil _)

/-- After the visits all mail of the tick before has been taken. -/
theorem Visited.count_inbox {s : TickState σ} (hvisited : h.Visited fuel b dispatches s)
    (hagents : dispatches.map Dispatch.agent = h.agents) (haddressed : h.Addressed) :
    s.inbox.count = 0 := by
  apply Mail.count_eq_zero
  intro id hid
  rw [Std.TreeMap.mem_iff_isSome_getElem?, hvisited.inbox] at hid
  split at hid
  · cases hid
  · rename_i hnone
    obtain ⟨agent, hagent, rfl⟩ := haddressed id (Std.TreeMap.mem_iff_isSome_getElem?.mpr hid)
    rw [← hagents] at hagent
    obtain ⟨d, hd, rfl⟩ := List.mem_map.mp hagent
    exact hnone (List.mem_map_of_mem hd)

/-- The mail that a receiver finds: the payloads of all agents that see it, in the order of the
group and of their sending. -/
def mailFor (h : Hub) (dispatches : List Dispatch) (receiver : Agent) : List Message :=
  dispatches.flatMap fun d =>
    if h.sees d.agent receiver then d.sent.map fun payload => ⟨d.agent.contextId, payload⟩ else []

/-- The letters to an agent are the mail for it. -/
theorem filter_outgoing {receiver : Agent} (hids : (h.agents.map Agent.contextId).Nodup)
    (hreceiver : receiver ∈ h.agents) :
    ((h.outgoing dispatches).filter fun letter => letter.1 = receiver.contextId).map Prod.snd =
      h.mailFor dispatches receiver := by
  unfold outgoing mailFor
  rw [List.filter_flatMap, List.map_flatMap]
  simp only [filter_letters hids hreceiver]

/-- Every letter is for an agent of the group. -/
theorem exists_of_mem_outgoing {letter : Letter} (hletter : letter ∈ h.outgoing dispatches) :
    ∃ receiver ∈ h.agents, receiver.contextId = letter.1 := by
  obtain ⟨d, _, hletter⟩ := List.mem_flatMap.mp hletter
  obtain ⟨payload, _, hletter⟩ := List.mem_flatMap.mp hletter
  obtain ⟨receiver, hreceiver, rfl⟩ := List.mem_map.mp hletter
  exact ⟨receiver, (List.mem_filter.mp hreceiver).1, rfl⟩

/-- A group in the course of its ticks. Between ticks agents move and are added, and the bridge
changes as it likes. -/
inductive Course (σ : Type) : Hub → Prop where
  | start (neighborDistance : Float32) : Course σ { neighborDistance }
  | place {h : Hub} (hcourse : Course σ h) (contextId : UInt16) (position : Position) :
      Course σ (h.place contextId position)
  | addAgent {h : Hub} (hcourse : Course σ h) (agent : Agent) (position : Position) :
      Course σ (h.addAgent agent position)
  | tick {h : Hub} (hcourse : Course σ h) {b : Bridge σ} (hfits : h.Fits b) {fuel : Nat}
      {ending : TickEnding σ} (htick : h.tick fuel b = some ending) : Course σ ending.hub

/-- A tick in which the agents have sent what the dispatches say. -/
structure Routes (h : Hub) (fuel : Nat) (b : Bridge σ) (dispatches : List Dispatch)
    (ending : TickEnding σ) : Prop where
  /-- The agents play their parts in the order of the group. -/
  agents : dispatches.map Dispatch.agent = h.agents
  /-- Every agent plays its part once, with all its mail of the tick before. -/
  plays : ∀ d ∈ dispatches, ∃ b₁ b₂ : Bridge σ,
    Plays fuel d.agent h.pending[d.agent.contextId]? b₁ d.sent b₂ ∧
      b₁.instance? d.agent.vm = b.instance? d.agent.vm ∧
      ending.bridge.instance? d.agent.vm = b₂.instance? d.agent.vm
  /-- The mail for the next tick is what has been sent, for agents of the group only. -/
  mail : ∀ receiver ∈ h.agents,
    ending.hub.pending.getD receiver.contextId [] = h.mailFor dispatches receiver
  addressed : ending.hub.Addressed
  /-- Nothing else in the hub has changed. -/
  rest : ending.hub = { h with pending := ending.hub.pending }
  /-- The report counts the mail. -/
  counted : ∃ report, ending.result = .ok report ∧ report.routed = ending.hub.pending.count
  /-- Once all agents have played their parts, no mail of the tick before is left to be dropped. -/
  taken : ∃ s, h.visitEach fuel { bridge := b, inbox := h.pending } = some (.ok (), s) ∧
    s.inbox.count = 0 ∧ s.bridge = ending.bridge

/-- A tick routes everything that the agents send, if all mail that waits is for them. -/
theorem exists_routes (hfits : h.Fits b) (haddressed : h.Addressed) {ending : TickEnding σ}
    (htick : h.tick fuel b = some ending) :
    ∃ dispatches, h.Routes fuel b dispatches ending := by
  obtain ⟨⟨result, s⟩, hvisits, rfl⟩ := Option.map_eq_some_iff.mp htick
  rw [visitAll_eq, Work.bind_eq] at hvisits
  obtain ⟨⟨answer, t⟩, heach, hdrop⟩ := Option.bind_eq_some_iff.mp hvisits
  have hends := ends_visitEach hfits _ heach
  match answer with
  | .error _ => cases hends
  | .ok () =>
    obtain ⟨dispatches, hagents, hvisited⟩ := hends
    have hcount := hvisited.count_inbox hagents haddressed
    have hkept : (dropMail : Ticking σ Unit) t = some (.ok (), t) := by
      have hchange : (dropMail : Ticking σ Unit) t = some (.ok (),
        if t.inbox.count = 0 then t else _) := rfl
      rw [hchange, if_pos hcount]
    have hdrop' : some (result, s) = some (.ok (), t) := hdrop.symm.trans hkept
    cases hdrop'
    have hvms : (dispatches.map fun d => d.agent.vm).Nodup := by
      have hnodup := hfits.vms
      rwa [← hagents, List.map_map] at hnodup
    have hmem (id : UInt16) : id ∈ s.pending ↔
        ∃ letter ∈ h.outgoing dispatches, letter.1 = id := by
      rw [hvisited.pending, Mail.mem_addAll_iff]
      simp
    refine ⟨dispatches, hagents, fun d hd => hvisited.round.exists_plays hvms hd, ?_, ?_, rfl,
      ⟨s.report, rfl, ?_⟩, s, heach, hcount, rfl⟩
    · intro receiver hreceiver
      change s.pending.getD receiver.contextId [] = _
      rw [hvisited.pending, Mail.getD_addAll, filter_outgoing hfits.ids hreceiver]
      simp
    · intro id hid
      obtain ⟨letter, hletter, rfl⟩ := (hmem id).mp hid
      exact exists_of_mem_outgoing hletter
    · rw [hvisited.routed]
      change _ = s.pending.count
      rw [hvisited.pending, Mail.count_addAll, Mail.count_eq_zero (by simp), Nat.zero_add]

/-- In the course of ticks all mail that waits is for agents of the group. -/
theorem Course.addressed (hcourse : Course σ h) : h.Addressed := by
  induction hcourse with
  | start neighborDistance =>
    intro id hid
    simp at hid
  | place _ contextId position ih => exact ih
  | addAgent _ agent position ih =>
    intro id hid
    obtain ⟨receiver, hreceiver, hid⟩ := ih id hid
    exact ⟨receiver, List.mem_append_left _ hreceiver, hid⟩
  | tick _ hfits htick ih =>
    obtain ⟨dispatches, hroutes⟩ := exists_routes hfits ih htick
    exact hroutes.addressed

/-- Exactly-once routing: whatever the ticks before were, a tick lets every agent play its part
once with all its mail, and the mail for the next tick is exactly what the agents have sent. -/
theorem Course.routes_once (hcourse : Course σ h) (hfits : h.Fits b) {ending : TickEnding σ}
    (htick : h.tick fuel b = some ending) : ∃ dispatches, h.Routes fuel b dispatches ending :=
  exists_routes hfits hcourse.addressed htick

end Hub

/-- A script that prints `hey` and sends it in every step and sends back what it hears, but fails
when the agent 6 hears something; and a debug-symbol table without entries. -/
def Files.chatting : Files := fun path =>
  if path = "script" then .ok [0x48, 0x49, 0x56, 0x45, 1, 6, 0, 4, 0, 0x73, 0x74, 0x65, 0x70, 6, 0,
    0x6c, 0x69, 0x73, 0x74, 0x65, 0x6e, 5, 0, 0x70, 0x72, 0x69, 0x6e, 0x74, 3, 0, 0x68, 0x65, 0x79,
    4, 0, 0x73, 0x65, 0x6e, 0x64, 2, 0, 0x69, 0x64, 65, 0, 0, 0, 6, 19, 0, 0, 0, 13, 0, 0, 12, 1, 0,
    6, 38, 0, 0, 0, 16, 1, 0, 12, 2, 0, 5, 3, 0, 16, 1, 9, 12, 4, 0, 5, 3, 0, 16, 1, 9, 17, 12, 5,
    0, 3, 6, 0, 0, 0, 31, 21, 62, 0, 0, 0, 12, 4, 0, 14, 2, 0, 16, 1, 9, 17, 2, 27, 17]
  else .ok [0x48, 0x44, 0x42, 0x47, 0, 0]

/-- A bridge into which the script has been loaded three times. -/
def Bridge.chatting : Bridge Unit :=
  (Operation.afterAll 0 (.new 3 0 {} ())
    ([4, 5, 6].map fun id => .load Files.chatting "script" "symbols" id)).get (by decide +kernel)

namespace Hub

/-- Three agents on a line; the outer ones see the one between them and not each other. -/
def chatting : Hub :=
  let h : Hub := { neighborDistance := 10 }
  ((h.addAgent ⟨⟨0⟩, 4⟩ {}).addAgent ⟨⟨1⟩, 5⟩ { x := 6 }).addAgent ⟨⟨2⟩, 6⟩ { x := 12 }

/-- The three agents fit any bridge with three machines. -/
theorem fits_of_agents {h : Hub} {b : Bridge Unit} (hagents : h.agents = chatting.agents)
    (hloaded : b.vmCount = 3) : h.Fits b := by
  have hchatting : chatting.agents = [⟨⟨0⟩, 4⟩, ⟨⟨1⟩, 5⟩, ⟨⟨2⟩, 6⟩] := rfl
  constructor <;> rw [hagents, hchatting]
  · decide
  · decide
  · intro agent hagent
    have hlt : agent.vm.index < b.vmCount := by
      rw [hloaded]
      simp only [List.mem_cons, List.not_mem_nil, or_false] at hagent
      rcases hagent with rfl | rfl | rfl <;> decide
    exact ⟨_, Bridge.find_of_instance? (Array.getElem?_eq_getElem hlt)⟩

/-- After the first tick every agent finds the mail of those who see it. In the second tick the
first agent hears one message and sends two, the second one hears two and sends three, and the last
one fails when it hears the first. -/
theorem routes_once_chatting : ∃ (first ending : TickEnding Unit) (dispatches : List Dispatch),
    chatting.tick 60 Bridge.chatting = some first ∧ first.hub.pending.count = 4 ∧
      first.hub.tick 60 first.bridge = some ending ∧
      first.hub.Routes 60 first.bridge dispatches ending ∧ ending.hub.pending.count = 8 ∧
      [4, 5, 6].map (fun id => (ending.hub.pending.getD id []).map Message.sender) =
        [[5, 5, 5], [4, 4], [5, 5, 5]] := by
  have hcourse : Course Unit chatting :=
    (((Course.start 10).addAgent _ _).addAgent _ _).addAgent _ _
  have hfits : chatting.Fits Bridge.chatting := fits_of_agents rfl (by decide +kernel)
  have hcheck : (chatting.tick 60 Bridge.chatting).any (fun first =>
      decide (first.hub.agents = chatting.agents ∧ first.bridge.vmCount = 3 ∧
        first.hub.pending.count = 4) &&
      (first.hub.tick 60 first.bridge).any fun ending => decide
        (ending.hub.pending.count = 8 ∧
          [4, 5, 6].map (fun id => (ending.hub.pending.getD id []).map Message.sender) =
            [[5, 5, 5], [4, 4], [5, 5, 5]])) = true := by decide +kernel
  obtain ⟨first, hfirst, hnext⟩ := (Option.any_eq_true _ _).mp hcheck
  obtain ⟨hbegun, hnext⟩ := (Bool.and_eq_true _ _).mp hnext
  obtain ⟨hagents, hloaded, hwaiting⟩ := of_decide_eq_true hbegun
  obtain ⟨ending, hending, hat⟩ := (Option.any_eq_true _ _).mp hnext
  obtain ⟨hcount, hletters⟩ := of_decide_eq_true hat
  obtain ⟨dispatches, hroutes⟩ :=
    Course.routes_once (hcourse.tick hfits hfirst) (fits_of_agents hagents hloaded) hending
  exact ⟨first, ending, dispatches, hfirst, hwaiting, hending, hroutes, hcount, hletters⟩

end Hub

end Swarm
