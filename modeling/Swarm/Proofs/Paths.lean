import Swarm.Proofs.Moments
import Swarm.Proofs.SoundLife

/-!
# Paths from moment to moment

The moments that are told of a machine are a path: from the idle machine, move by
move, with what happens in every move. Whatever ends a telling, a success, an
error or the want of fuel, the path leads as far as the machine has come. What
every move preserves holds therefore at every moment of a turn.
-/

namespace Swarm

variable {σ α β : Type} {hooks : HookTable σ} {fuel : Nat}

namespace Stage

/-- A move in the life of a machine, and what happens in it. Messages are taken one at a time. -/
inductive Moves (hooks : HookTable σ) : Stage σ → List (Moment σ) → Stage σ → Prop where
  | drop {m : Machine Native} {message : Message} {rest : List Message}
      (hinbound : m.store.mailbox.inbound = message :: rest) (hlistener : m.store.listener = none) :
      Moves hooks (.idle m) [.takes message none] (.idle (m.leaveMessages rest))
  | hear {m m' : Machine Native} {message : Message} {rest : List Message} {listener : Value}
      {arguments : List Value} (w : World σ) (hinbound : m.store.mailbox.inbound = message :: rest)
      (hlistener : m.store.listener = some listener)
      (hpresent : (m.leaveMessages rest).present message = (m', arguments)) :
      Moves hooks (.idle m) [.takes message (some listener), .hears m' listener arguments]
        (.busy (.startCall m' w [] listener arguments))
  | body (m : Machine Native) (w : World σ) :
      Moves hooks (.idle m) [] (.busy (.startScript m w []))
  | call (m : Machine Native) (w : World σ) (name : String) :
      Moves hooks (.idle m) []
        (.busy (.startCall m w [] (m.store.global (Utf8.encode name)) []))
  | step (e : Execution Native Traversal σ) :
      Moves hooks (.busy e) [.works e (e.step (Native.system hooks))]
        (.busy (e.step (Native.system hooks)))
  | leave (m : Machine Native) (w : World σ) (activation : Activation)
      (result : Except RuntimeError Value) :
      Moves hooks (.busy ⟨m, w, activation, .leaving result, []⟩) [] (.idle m)
  | heard (m : Machine Native) (w : World σ) (activation : Activation)
      (result : Except RuntimeError Value) :
      Moves hooks (.busy ⟨m, w, activation, .leaving result, []⟩) [.heard result] (.idle m)

/-- Moves lead from the one stage to the other; the moments are those of all of them. -/
inductive Path (hooks : HookTable σ) : Stage σ → List (Moment σ) → Stage σ → Prop where
  | nil (s : Stage σ) : Path hooks s [] s
  | cons {s s' t : Stage σ} {now later : List (Moment σ)} (hmove : s.Moves hooks now s')
      (hrest : Path hooks s' later t) : Path hooks s (now ++ later) t

variable {s s' t : Stage σ} {moments more : List (Moment σ)}

/-- One move is a path. -/
theorem Moves.path (h : s.Moves hooks moments t) : s.Path hooks moments t := by
  have hpath : s.Path hooks (moments ++ []) t := .cons h (.nil t)
  rwa [List.append_nil] at hpath

/-- Paths one after the other are a path. -/
theorem Path.append (h : s.Path hooks moments s') (h' : s'.Path hooks more t) :
    s.Path hooks (moments ++ more) t := by
  induction h with
  | nil s => exact h'
  | cons hmove _ ih =>
    rw [List.append_assoc]
    exact .cons hmove (ih h')

/-- Every step on a path divides it into what comes before and what comes after. -/
theorem Path.split (h : s.Path hooks moments t) {e e' : Execution Native Traversal σ}
    (hmem : .works e e' ∈ moments) :
    ∃ before after, moments = before ++ .works e e' :: after ∧ s.Path hooks before (.busy e) ∧
      e' = e.step (Native.system hooks) ∧ Path hooks (.busy e') after t := by
  induction h with
  | nil s => cases hmem
  | @cons s s' t now later hmove hrest ih =>
    -- Of all moves only a step tells a moment of work, and it tells no other one.
    rcases List.mem_append.mp hmem with hnow | hlater
    · cases hmove with
      | step e₁ =>
        cases List.mem_singleton.mp hnow
        exact ⟨[], later, rfl, .nil _, rfl, hrest⟩
      | drop | hear | body | call | leave | heard => simp at hnow
    · obtain ⟨before, after, rfl, hbefore, he', hafter⟩ := ih hlater
      exact ⟨now ++ before, after, by simp, .cons hmove hbefore, he', hafter⟩

/-- A path from an execution that is not over begins with its next step. -/
theorem Path.next_step {e : Execution Native Traversal σ} {m : Machine Native}
    (h : Path hooks (.busy e) moments (.idle m)) (he : ∀ result, e.phase ≠ .leaving result) :
    ∃ after, moments = .works e (e.step (Native.system hooks)) :: after ∧
      Path hooks (.busy (e.step (Native.system hooks))) after (.idle m) := by
  cases h with
  | cons hmove hrest =>
    cases hmove with
    | step => exact ⟨_, rfl, hrest⟩
    | leave m w activation result | heard m w activation result => exact absurd rfl (he result)

/-- A move keeps the machine sound, and it keeps what the machine trusts. -/
theorem Moves.sound (h : s.Moves hooks moments s') (hs : s.Sound) :
    s'.Sound ∧ s.machine.Grows s'.machine := by
  cases h with
  | @drop m message rest hinbound hlistener =>
    have hstore := hs.store.setMailbox { m.store.mailbox with inbound := rest }
    have hleave : m.Evolves (m.leaveMessages rest) := hs.withStore hstore
    exact ⟨hleave.sound, hleave.grows⟩
  | hear w hinbound hlistener hpresent =>
    have hnext := Machine.nextDelivery_of_listener hinbound hlistener w
    rw [hpresent] at hnext
    exact hs.next (.hear hnext)
  | body m w => exact hs.next (.body m w)
  | call m w name => exact hs.next (.call m w name)
  | step e => exact hs.next (.step hooks e)
  | leave m w activation result | heard m w activation result =>
    exact hs.next (.leave m w activation result)

/-- Paths keep machines sound. -/
theorem Path.sound (h : s.Path hooks moments t) (hs : s.Sound) :
    t.Sound ∧ s.machine.Grows t.machine := by
  induction h with
  | nil s => exact ⟨hs, .refl⟩
  | cons hmove _ ih =>
    obtain ⟨hs', hgrows⟩ := hmove.sound hs
    obtain ⟨ht, hgrows'⟩ := ih hs'
    exact ⟨ht, hgrows.trans hgrows'⟩

end Stage

open Stage

/-- What is told is a path from the machine; an answer tells where it leads. -/
def Telling.Travels (hooks : HookTable σ) (m : Machine Native) (telling : Telling σ α) : Prop :=
  ∃ t, Path hooks (.idle m) telling.2 t ∧
    ∀ ending, telling.1 = some ending → t = .idle ending.machine

section Entries

variable {m : Machine Native} {w : World σ}

/-- The steps of a run are a path. -/
theorem Execution.path_trail (hooks : HookTable σ) (e : Execution Native Traversal σ) (fuel : Nat) :
    ∃ t, Path hooks (.busy e) (e.trail hooks fuel) t ∧
      ∀ ending, e.run (Native.system hooks) fuel = some ending → ∃ activation,
        t = .busy ⟨ending.machine, ending.world, activation, .leaving ending.result, []⟩ := by
  fun_induction Execution.trail hooks fuel e with
  | case1 fuel m w activation result =>
    refine ⟨_, .nil _, fun ending hrun => ?_⟩
    have hrun' : some ⟨result, m, w⟩ = some ending := by
      rw [← hrun]
      cases fuel <;> rfl
    cases hrun'
    exact ⟨activation, rfl⟩
  | case2 e he =>
    refine ⟨_, .nil _, fun ending hrun => ?_⟩
    unfold Execution.run at hrun
    split at hrun
    · exact (he _ _ _ _ rfl).elim
    · cases hrun
    · contradiction
  | case3 fuel e he e' ih =>
    obtain ⟨t, hpath, hends⟩ := ih
    refine ⟨t, .cons (.step e) hpath, fun ending hrun => hends ending ?_⟩
    unfold Execution.run at hrun
    split at hrun
    · exact (he _ _ _ _ rfl).elim
    · contradiction
    · rename_i heq _
      cases heq
      exact hrun

/-- Running an execution and leaving it at the end. -/
theorem Execution.path_tell (fuel : Nat) {s : Stage σ} {e : Execution Native Traversal σ}
    (hmove : s.Moves hooks [] (.busy e)) :
    ∃ t, s.Path hooks (e.tell hooks fuel).2 t ∧
      ∀ ending, (e.tell hooks fuel).1 = some ending → t = .idle ending.machine := by
  obtain ⟨t, hpath, hends⟩ := e.path_trail hooks fuel
  cases hrun : e.run (Native.system hooks) fuel with
  | none => exact ⟨t, .cons hmove hpath, fun ending heq => by cases hrun.symm.trans heq⟩
  | some ending =>
    obtain ⟨activation, rfl⟩ := hends ending hrun
    have hleave := hpath.append (Moves.leave _ _ _ _).path
    rw [List.append_nil] at hleave
    refine ⟨_, .cons hmove hleave, fun ending' heq => ?_⟩
    cases hrun.symm.trans heq
    rfl

/-- The path of a call to have a message heard. -/
theorem Machine.path_hear {m' : Machine Native} {message : Message} {rest : List Message}
    {listener : Value} {arguments : List Value}
    (hinbound : m.store.mailbox.inbound = message :: rest)
    (hlistener : m.store.listener = some listener)
    (hpresent : (m.leaveMessages rest).present message = (m', arguments))
    {answer : Option (Ending Native σ Value)} {work : List (Moment σ)}
    (htell : (Execution.startCall m' w [] listener arguments).tell hooks fuel = (answer, work)) :
    let moments := .takes message (some listener) :: .hears m' listener arguments :: work
    (∃ t, Path hooks (.idle m) moments t) ∧ ∀ ending, answer = some ending →
      Path hooks (.idle m) (moments ++ [.heard ending.result]) (.idle ending.machine) := by
  obtain ⟨t, hpath, hends⟩ :=
    (Execution.startCall m' w [] listener arguments).path_trail hooks fuel
  obtain ⟨hrun, hwork⟩ := Prod.mk.inj htell
  rw [hwork] at hpath
  have hmove := Path.cons (.hear w hinbound hlistener hpresent) hpath
  refine ⟨⟨t, hmove⟩, fun ending hending => ?_⟩
  obtain ⟨activation, rfl⟩ := hends ending (hrun.trans hending)
  exact hmove.append (Moves.heard _ _ _ _).path

variable (hooks fuel)

/-- Running the body is a path. -/
theorem Machine.travels_tellScript (m : Machine Native) (w : World σ) :
    (m.tellScript hooks fuel w).Travels hooks m := by
  have hmove : Moves hooks (.idle m) [] (.busy (.startScript m w [])) := .body m w
  obtain ⟨t, hpath, hends⟩ := Execution.path_tell fuel hmove
  refine ⟨t, hpath, fun ending hending => ?_⟩
  obtain ⟨inner, hinner, rfl⟩ := Option.map_eq_some_iff.mp hending
  exact hends inner hinner

/-- Calling a global function is a path. -/
theorem Machine.travels_tellGlobal (name : String) (m : Machine Native) (w : World σ) :
    (m.tellGlobal hooks fuel name w).Travels hooks m := by
  have hstay (ending : Ending Native σ Value) (hending : ending.machine = m) :
      Telling.Travels hooks m (some ending, []) := by
    refine ⟨_, .nil _, fun _ heq => ?_⟩
    cases heq
    rw [hending]
  unfold tellGlobal
  split
  · dsimp only
    split
    · exact hstay _ rfl
    · exact Execution.path_tell fuel (.call m w name)
  · exact hstay _ rfl

/-- Hearing messages one after the other is a path. -/
theorem Machine.travels_tellMessages (m : Machine Native) (w : World σ) (heard rounds : Nat) :
    (m.tellMessages hooks fuel w heard rounds).Travels hooks m := by
  fun_induction tellMessages hooks fuel m w heard rounds with
  | case1 m w heard =>
    refine ⟨_, .nil _, fun ending heq => ?_⟩
    cases heq
  | case2 m w heard rounds hinbound =>
    refine ⟨_, .nil _, fun ending heq => ?_⟩
    cases heq
    rfl
  | case3 m w heard rounds message rest hinbound hlistener text answer moments hrest ih =>
    rw [hrest] at ih
    obtain ⟨t, hpath, hends⟩ := ih
    exact ⟨t, .cons (.drop hinbound hlistener) hpath, hends⟩
  | case4 m w heard rounds message rest hinbound listener hlistener m' arguments hpresent work
      moments htell =>
    obtain ⟨⟨t, hpath⟩, _⟩ := path_hear hinbound hlistener hpresent htell
    refine ⟨t, hpath, fun ending heq => ?_⟩
    cases heq
  | case5 m w heard rounds message rest hinbound listener hlistener m' arguments hpresent work
      moments error m₁ w₁ htell =>
    obtain ⟨_, hheard⟩ := path_hear hinbound hlistener hpresent htell
    refine ⟨_, hheard _ rfl, fun ending heq => ?_⟩
    cases heq
    rfl
  | case6 m w heard rounds message rest hinbound listener hlistener m' arguments hpresent work
      moments value m₁ w₁ answer more hmore htell ih =>
    rw [hmore] at ih
    obtain ⟨t, hpath, hends⟩ := ih
    obtain ⟨_, hheard⟩ := path_hear hinbound hlistener hpresent htell
    have hall := (hheard _ rfl).append hpath
    rw [List.append_assoc] at hall
    exact ⟨t, hall, hends⟩

/-- Hearing the messages that wait is a path. -/
theorem Machine.travels_tellInbound (m : Machine Native) (w : World σ) :
    (m.tellInbound hooks fuel w).Travels hooks m := by
  unfold tellInbound
  split
  · exact travels_tellMessages hooks fuel m w 0 fuel
  · refine ⟨_, .nil _, fun ending heq => ?_⟩
    cases heq
    rfl

end Entries

namespace Told

variable {told : Told σ α} {next : α → Told σ β} {final : Machine Native → Machine Native}

/-- What is told is a path from the machine; if the work succeeds, the machine is changed once more
at its end. -/
def Travels (hooks : HookTable σ) (final : Machine Native → Machine Native) (told : Told σ α) :
    Prop :=
  ∀ s, ∃ t, Path hooks (.idle s.1.machine) (told s).2 t ∧
    ∀ result s', (told s).1 = some (result, s') → ∃ m, t = .idle m ∧
      s'.1.machine = match result with
        | .ok _ => final m
        | .error _ => m

/-- A change of the script changes its machine at most at the end. -/
theorem travels_modify {f : Instance × World σ → Instance × World σ}
    (hf : ∀ s, (f s).1.machine = final s.1.machine) :
    (silent (modify f)).Travels hooks final := by
  refine fun s => ⟨_, .nil _, fun result s' heq => ⟨_, rfl, ?_⟩⟩
  cases heq
  exact hf s

/-- An entry travels as its telling does. -/
theorem travels_enter {f : Machine Native → World σ → Telling σ α}
    (hf : ∀ m w, (f m w).Travels hooks m) : (enter f).Travels hooks id := by
  intro (i, w)
  obtain ⟨t, hpath, hends⟩ := hf i.machine w
  refine ⟨t, hpath, fun result s' heq => ?_⟩
  obtain ⟨ending, hending, heq⟩ := Option.map_eq_some_iff.mp heq
  refine ⟨_, hends ending hending, ?_⟩
  cases heq
  cases ending.result <;> rfl

/-- Work that travels may be followed by more such work. -/
theorem Travels.bind (h : told.Travels hooks id) (hnext : ∀ a, (next a).Travels hooks final) :
    (told >>= next).Travels hooks final := by
  intro s
  obtain ⟨t, hpath, hends⟩ := h s
  change ∃ t, Path hooks _ (told.andThen next s).2 t ∧
    ∀ result s', (told.andThen next s).1 = some (result, s') → _
  unfold andThen
  cases htold : told s with
  | mk answer moments =>
    rw [htold] at hpath hends
    match answer with
    | none => exact ⟨t, hpath, fun _ _ heq => nomatch heq⟩
    | some (.error e, s₁) =>
      refine ⟨t, hpath, fun result s' heq => ?_⟩
      cases heq
      exact hends _ _ rfl
    | some (.ok a, s₁) =>
      obtain ⟨m, rfl, hmachine⟩ := hends _ _ rfl
      obtain ⟨t', hpath', hends'⟩ := hnext a s₁
      rw [hmachine] at hpath'
      exact ⟨t', hpath.append hpath', hends'⟩

variable (hooks fuel)

/-- The first part of a turn is a path. -/
theorem travels_begin : (begin hooks fuel).Travels hooks id :=
  (travels_modify fun _ => rfl).bind fun _ =>
    (travels_enter (Machine.travels_tellScript hooks fuel)).bind fun _ =>
    (travels_enter (Machine.travels_tellGlobal hooks fuel "init")).bind fun _ =>
    (travels_modify fun _ => rfl).bind fun _ => travels_modify fun _ => rfl

/-- The part of a turn that every step has is a path, after which strings are released. -/
theorem travels_round : (round hooks fuel).Travels hooks Machine.released :=
  (travels_enter (Machine.travels_tellInbound hooks fuel)).bind fun _ =>
    (travels_enter (Machine.travels_tellGlobal hooks fuel "step")).bind fun _ =>
    travels_modify fun _ => rfl

/-- A turn begins with the body unless it has run before. -/
theorem turn_apply (s : Instance × World σ) : turn hooks fuel s =
    (if !s.1.stepped then begin hooks fuel >>= fun _ => round hooks fuel
      else round hooks fuel : Told σ Unit) s := by
  change (if !s.1.stepped then begin hooks fuel >>= fun _ => round hooks fuel
    else round hooks fuel : Told σ Unit) s = _
  rfl

/-- A turn is a path; if it succeeds, strings are released at its end. -/
theorem travels_turn : (turn hooks fuel).Travels hooks Machine.released := by
  intro s
  rw [turn_apply]
  split
  · exact ((travels_begin hooks fuel).bind fun _ => travels_round hooks fuel) s
  · exact travels_round hooks fuel s

end Told

end Swarm
