import Mathlib.Data.Bool.Count
import Swarm.Proofs.Tallies

/-!
# Progress of a group

Agents may share a machine or an id. As long as all their machines are loaded, a
tick succeeds and counts every agent once. While no agent is added and nothing is
unloaded, agents that are counted as faulted are counted as faulted in every later
tick; and when a tick has stepped no agent, no later tick does anything but report.
-/

namespace Swarm

namespace Hub

variable {σ : Type} {h h' : Hub} {fuel : Nat} {b b' : Bridge σ} {group : List Agent}
  {s : TickState σ} {ending : TickEnding σ}

/-- All agents have loaded machines. -/
def Manned (h : Hub) (b : Bridge σ) : Prop := ∀ agent ∈ h.agents, ∃ i, b.find agent.vm = .ok i

/-- Which agents a tick counts as faulted, in the order of the group. -/
def verdicts (h : Hub) (fuel : Nat) (b : Bridge σ) : Option (List Bool) :=
  (h.tally fuel h.agents { bridge := b, inbox := h.pending }).bind fun (result, _) =>
    result.toOption

/-- Time goes by for a group: ticks take place, agents are moved, and the host operates the bridge
without unloading anything. No agent is added. -/
inductive Later (h : Hub) (b : Bridge σ) : Hub → Bridge σ → Prop where
  | now : Later h b h b
  | tick {h' : Hub} {b' : Bridge σ} {fuel : Nat} {ending : TickEnding σ} (hlater : Later h b h' b')
      (htick : h'.tick fuel b' = some ending) : Later h b ending.hub ending.bridge
  | move {h' : Hub} {b' : Bridge σ} (hlater : Later h b h' b') (contextId : UInt16)
      (position : Position) : Later h b (h'.place contextId position) b'
  | operate {h' : Hub} {b' b'' : Bridge σ} (hlater : Later h b h' b') (hstays : b'.Stays b'') :
      Later h b h' b''

/-- What a tick makes of a group with loaded machines, and what it means for later ticks. -/
structure Proceeds (h : Hub) (b : Bridge σ) : Prop where
  /-- A tick succeeds and counts every agent once, as stepped or as faulted. -/
  counts : ∀ fuel ending, h.tick fuel b = some ending → ∃ report verdicts,
    ending.result = .ok report ∧ h.verdicts fuel b = some verdicts ∧
      verdicts.length = h.agents.length ∧ report.faulted = verdicts.count true ∧
      report.stepped + report.faulted = h.agents.length
  /-- Agents that are counted as faulted are counted as faulted in all later ticks. -/
  grows : ∀ fuel ending verdicts, h.tick fuel b = some ending →
    h.verdicts fuel b = some verdicts → ∀ h' b', Later ending.hub ending.bridge h' b' →
      ∀ fuel' ending', h'.tick fuel' b' = some ending' → ∃ verdicts',
        h'.verdicts fuel' b' = some verdicts' ∧
          ∀ k : Nat, verdicts[k]? = some true → verdicts'[k]? = some true
  /-- After a tick that has stepped no agent, a tick steps no agent, routes nothing and changes
  nothing but the journal and the mail. -/
  idles : ∀ fuel ending report, h.tick fuel b = some ending → ending.result = .ok report →
    report.stepped = 0 → ∀ h' b', Later ending.hub ending.bridge h' b' → ∀ fuel', ∃ journal,
      h'.tick fuel' b' = some
        { result := .ok { stepped := 0, faulted := h.agents.length, routed := 0 }
          hub := { h' with pending := {} }
          bridge := { b' with world := { b'.world with journal } } }

/-- Agents stay loaded through operations. -/
theorem Manned.stays (hmanned : h.Manned b) (hstays : b.Stays b') : h.Manned b' := by
  intro agent hagent
  obtain ⟨i, hfind⟩ := hmanned agent hagent
  exact hstays.exists_find hfind

/-- Dropping mail changes nothing but the journal. -/
theorem exists_dropMail (s : TickState σ) : ∃ journal,
    dropMail s = some (Except.ok (), { s with
      bridge := { s.bridge with world := { s.bridge.world with journal } } }) := by
  let text := s!"dropped {s.inbox.count} messages addressed to unknown agents"
  have hdrop : dropMail s = some (Except.ok (),
      if s.inbox.count = 0 then s else { s with bridge := s.bridge.report .warn text }) := rfl
  rw [hdrop]
  split
  · exact ⟨s.bridge.world.journal, rfl⟩
  · exact ⟨_, rfl⟩

/-- Visiting all agents loads and unloads nothing. -/
theorem carries_visitAll (h : Hub) (fuel : Nat) :
    Ticking.Carries (h.visitAll (σ := σ) fuel) := by
  refine (Ticking.carries_forIn (fun agent => ?_) _).bind fun _ s => ?_
  · exact (h.carries_visit fuel agent).bind fun _ => Ticking.carries_pure _
  · obtain ⟨journal, hdrop⟩ := exists_dropMail s
    exact Work.ends_of_eq hdrop (Bridge.carries_world _)

/-- A tick loads and unloads nothing, however it ends. -/
theorem carries_tick (htick : h.tick fuel b = some ending) : b.Carries ending.bridge := by
  obtain ⟨⟨result, s⟩, hvisits, rfl⟩ := Option.map_eq_some_iff.mp htick
  have hcarries := h.carries_visitAll fuel _ _ hvisits
  cases result <;> exact hcarries

/-- A tick leaves the agents of the hub. -/
theorem agents_tick (htick : h.tick fuel b = some ending) : ending.hub.agents = h.agents := by
  obtain ⟨⟨result, s⟩, _, rfl⟩ := Option.map_eq_some_iff.mp htick
  rfl

/-- Later bridges have come about by operations. -/
theorem Later.stays (hlater : Later h b h' b') : b.Stays b' := by
  induction hlater with
  | now => exact .refl
  | tick _ htick ih => exact ih.trans (carries_tick htick).stays
  | move _ _ _ ih => exact ih
  | operate _ hstays ih => exact ih.trans hstays

/-- Later hubs have the same agents. -/
theorem Later.agents (hlater : Later h b h' b') : h'.agents = h.agents := by
  induction hlater with
  | now => rfl
  | tick _ htick ih => exact (agents_tick htick).trans ih
  | move _ _ _ ih => exact ih
  | operate _ _ ih => exact ih

/-- The group is still complete later. -/
theorem Later.manned (hlater : Later h b h' b') (hmanned : h.Manned b) : h'.Manned b' := by
  unfold Manned
  rw [hlater.agents]
  exact hmanned.stays hlater.stays

/-- The verdicts of a tick with an answer. -/
theorem Manned.exists_tallied (hmanned : h.Manned b) (hb : b.Reachable)
    (htick : h.tick fuel b = some ending) : ∃ verdicts s journal,
      h.verdicts fuel b = some verdicts ∧
      Tallied h.agents { bridge := b, inbox := h.pending } verdicts s ∧
      ending = { result := .ok s.report
                 hub := { h with pending := s.pending }
                 bridge := { s.bridge with world := { s.bridge.world with journal } } } := by
  obtain ⟨⟨result, s'⟩, hvisits, rfl⟩ := Option.map_eq_some_iff.mp htick
  have hvisit : (h.visitEach fuel : Ticking σ Unit) = h.tally fuel h.agents >>= fun _ => pure () :=
    h.visits_eq_tally fuel h.agents
  rw [visitAll_eq, hvisit, bind_assoc, Work.bind_eq] at hvisits
  obtain ⟨⟨answer, s⟩, htally, hdrop⟩ := Option.bind_eq_some_iff.mp hvisits
  have hends := h.ends_tally fuel (s := { bridge := b, inbox := h.pending }) hb hmanned
  match answer with
  | .ok verdicts =>
    obtain ⟨journal, hdropped⟩ := exists_dropMail s
    rw [show (pure () >>= fun _ => dropMail : Ticking σ Unit) = dropMail from rfl] at hdrop
    cases hdropped.symm.trans hdrop
    refine ⟨verdicts, s, journal, ?_, hends.ok htally, rfl⟩
    unfold Hub.verdicts
    rw [htally]
    rfl
  | .error e => exact (hends.error htally).elim

/-- Visits of agents that have stopped do nothing but count them, take their mail, and report. -/
theorem exists_visits_of_stopped (h : Hub) (fuel : Nat) (s : TickState σ)
    (hstopped : ∀ agent ∈ group,
      agent.vm.index < s.bridge.vmCount ∧ s.bridge.isStopped agent.vm = true) :
    ∃ inbox journal, h.visits fuel group s = some (.ok (),
      { s with
        bridge := { s.bridge with world := { s.bridge.world with journal } }
        inbox
        report := { s.report with faulted := s.report.faulted + group.length } }) := by
  induction group generalizing s with
  | nil => exact ⟨s.inbox, s.bridge.world.journal, rfl⟩
  | cons agent rest ih =>
    obtain ⟨⟨hloaded, hstop⟩, hrest⟩ := List.forall_mem_cons.mp hstopped
    have hvisits : (h.visits fuel (agent :: rest) : Ticking σ Unit) =
        h.visit fuel agent >>= fun _ => h.visits fuel rest := by
      simp only [visits, List.forIn_cons, bind_assoc, pure_bind]
    obtain ⟨journal, hdiscard⟩ : ∃ journal, discarded agent s.inbox[agent.contextId]? s.bridge =
        { s.bridge with world := { s.bridge.world with journal } } := by
      unfold discarded
      cases s.inbox[agent.contextId]? with
      | none => exact ⟨_, rfl⟩
      | some messages => exact ⟨_, rfl⟩
    have hpassed : passedOver agent s =
        { s with
          bridge := { s.bridge with world := { s.bridge.world with journal } }
          inbox := s.inbox.erase agent.contextId
          report := { s.report with faulted := s.report.faulted + 1 } } := by
      unfold passedOver
      rw [hdiscard]
    obtain ⟨inbox', journal', hvisit⟩ := ih (passedOver agent s) (by
      rw [hpassed]
      exact hrest)
    refine ⟨inbox', journal', ?_⟩
    rw [hvisits, Work.bind_ok (visit_of_stopped hloaded hstop), hvisit, hpassed]
    simp only [List.length_cons, Nat.add_assoc, Nat.add_comm 1]

/-- A tick of a group whose machines have all stopped. -/
theorem exists_tick_of_stopped (fuel : Nat) (hmanned : h.Manned b)
    (hstopped : ∀ agent ∈ h.agents, b.isStopped agent.vm = true) : ∃ journal,
      h.tick fuel b = some
        { result := .ok { stepped := 0, faulted := h.agents.length, routed := 0 }
          hub := { h with pending := {} }
          bridge := { b with world := { b.world with journal } } } := by
  obtain ⟨inbox, journal, hvisits⟩ := h.exists_visits_of_stopped fuel
    { bridge := b, inbox := h.pending } fun agent hagent =>
      ⟨Bridge.lt_vmCount_of_find (hmanned agent hagent).choose_spec, hstopped agent hagent⟩
  obtain ⟨journal', hdrop⟩ := exists_dropMail (σ := σ)
    { bridge := { b with world := { b.world with journal } }, inbox := inbox,
      report := { faulted := h.agents.length } }
  have hvisit : h.visitEach fuel = h.visits (σ := σ) fuel h.agents := rfl
  refine ⟨journal', ?_⟩
  unfold tick
  rw [visitAll_eq, hvisit, Work.bind_ok hvisits]
  simp only [Nat.zero_add]
  rw [hdrop]
  rfl

/-- A tick that steps no agent leaves all machines of the group stopped and no mail. -/
theorem Tallied.all_stopped {s' : TickState σ} {verdicts : List Bool}
    (htallied : Tallied group s verdicts s') (hnone : false ∉ verdicts) :
    ∀ agent ∈ group, s'.bridge.isStopped agent.vm = true := by
  intro agent hagent
  obtain ⟨k, hk⟩ := List.getElem?_of_mem hagent
  obtain ⟨hlt, _⟩ := List.getElem?_eq_some_iff.mp hk
  rw [← htallied.length] at hlt
  refine htallied.after k agent hk ?_
  have hmem : verdicts[k] ∈ verdicts := List.getElem_mem hlt
  rw [List.getElem?_eq_getElem hlt]
  cases hverdict : verdicts[k] with
  | true => rfl
  | false => exact absurd (hverdict ▸ hmem) hnone

/-- After a tick that has stepped no agent all machines of the group have stopped, and no mail
waits. -/
theorem Manned.stops (hmanned : h.Manned b) (hb : b.Reachable) {report : TickReport}
    (htick : h.tick fuel b = some ending) (hreport : ending.result = .ok report)
    (hnone : report.stepped = 0) :
    (∀ agent ∈ h.agents, ending.bridge.isStopped agent.vm = true) ∧ ending.hub.pending = {} := by
  obtain ⟨verdicts, s, journal, _, htallied, rfl⟩ := hmanned.exists_tallied hb htick
  cases hreport
  have hstepped := htallied.stepped
  rw [hnone, Nat.zero_add] at hstepped
  have hcount : false ∉ verdicts := List.count_eq_zero.mp hstepped.symm
  exact ⟨htallied.all_stopped hcount, (htallied.silent hcount).1⟩

/-- A group with loaded machines proceeds. -/
theorem Manned.proceeds (hmanned : h.Manned b) (hb : b.Reachable) : h.Proceeds b where
  counts fuel ending htick := by
    obtain ⟨verdicts, s, journal, hverdicts, htallied, rfl⟩ := hmanned.exists_tallied hb htick
    have hfaulted : s.report.faulted = verdicts.count true := by simpa using htallied.faulted
    have hstepped : s.report.stepped = verdicts.count false := by simpa using htallied.stepped
    refine ⟨s.report, verdicts, rfl, hverdicts, htallied.length, hfaulted, ?_⟩
    rw [hfaulted, hstepped, ← htallied.length, List.count_false_add_count_true]
  grows fuel ending verdicts htick hverdicts h' b' hlater fuel' ending' htick' := by
    obtain ⟨verdicts, s, journal, hsame, htallied, rfl⟩ := hmanned.exists_tallied hb htick
    cases hsame.symm.trans hverdicts
    have hmanned₁ : h.Manned s.bridge := hmanned.stays htallied.carries.stays
    have hstays : s.bridge.Stays b' := (Bridge.carries_world _).stays.trans hlater.stays
    have hmanned' : h'.Manned b' := hlater.manned (hmanned.stays (carries_tick htick).stays)
    have hb' : b'.Reachable := (hb.stays htallied.carries.stays).stays hstays
    obtain ⟨verdicts', s', journal', hverdicts', htallied', rfl⟩ :=
      hmanned'.exists_tallied hb' htick'
    refine ⟨verdicts', hverdicts', fun k hk => ?_⟩
    obtain ⟨hlt, _⟩ := List.getElem?_eq_some_iff.mp hk
    rw [htallied.length] at hlt
    have hagent := List.getElem?_eq_getElem hlt
    have hagent' : h'.agents[k]? = some h.agents[k] := by rw [hlater.agents, hagent]
    obtain ⟨i, hfind⟩ := hmanned₁ _ (List.getElem_mem hlt)
    exact htallied'.before k _ hagent' (hstays.isStopped hfind (htallied.after k _ hagent hk))
  idles fuel ending report htick hreport hnone h' b' hlater fuel' := by
    have hmanned₁ : h.Manned ending.bridge := hmanned.stays (carries_tick htick).stays
    have hagents : h'.agents = h.agents := hlater.agents.trans (agents_tick htick)
    have hmanned' : h'.Manned b' := by
      unfold Manned
      rw [hagents]
      exact hmanned₁.stays hlater.stays
    have hstopped : ∀ agent ∈ h'.agents, b'.isStopped agent.vm = true := by
      rw [hagents]
      intro agent hagent
      obtain ⟨i, hfind⟩ := hmanned₁ agent hagent
      exact hlater.stays.isStopped hfind ((hmanned.stops hb htick hreport hnone).1 agent hagent)
    rw [← congrArg List.length hagents]
    exact exists_tick_of_stopped fuel' hmanned' hstopped

end Hub

end Swarm
