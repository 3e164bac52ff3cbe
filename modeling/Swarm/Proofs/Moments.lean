import Swarm.Bridge.Step
import Swarm.Proofs.Work

/-!
# What happens in a machine, moment by moment

A turn that is told does what the turn does and tells in addition which messages
are taken, which calls are made to have them heard, and every step of execution,
in the order in which they happen and also if the turn has no answer. Messages
are told one at a time, although a round of the turn passes over all messages
that nobody hears.
-/

namespace Swarm

/-- What happens in a machine during an operation. -/
inductive Moment (σ : Type) where
  /-- The oldest message is taken; the listener is that of this moment. -/
  | takes (message : Message) (listener : Option Value)
  /-- The machine is called to have a message heard. -/
  | hears (m : Machine Native) (callee : Value) (arguments : List Value)
  /-- The call to have a message heard has ended. -/
  | heard (result : Except RuntimeError Value)
  /-- The execution takes a step to the other one. -/
  | works (e e' : Execution Native Traversal σ)

/-- The steps of a run, one after the other. -/
def Execution.trail {σ : Type} (hooks : HookTable σ) :
    Nat → Execution Native Traversal σ → List (Moment σ)
  | _, ⟨_, _, _, .leaving _, []⟩ => []
  | 0, _ => []
  | fuel + 1, e =>
    let e' := e.step (Native.system hooks)
    .works e e' :: trail hooks fuel e'

/-- What an entry into a machine ends with, and what has happened. -/
abbrev Telling (σ α : Type) := Option (Ending Native σ α) × List (Moment σ)

section Entries

variable {σ : Type} (hooks : HookTable σ) (fuel : Nat)

/-- Run an execution and tell its steps. -/
def Execution.tell (e : Execution Native Traversal σ) : Telling σ Value :=
  (e.run (Native.system hooks) fuel, e.trail hooks fuel)

namespace Machine

/-- The machine without its oldest message. -/
def leaveMessages (m : Machine Native) (rest : List Message) : Machine Native :=
  m.mapStore fun s => { s with mailbox := { s.mailbox with inbound := rest } }

/-- The machine that has the payload of a message among its strings, and the arguments for the
listener. -/
def present (m : Machine Native) (message : Message) : Machine Native × List Value :=
  let (m, payload) := m.withStore fun s => s.intern message.payload
  (m, [.int (Int64.ofNat message.sender.toNat), payload])

/-- Run the body of the script. -/
def tellScript (m : Machine Native) (w : World σ) : Telling σ Unit :=
  let (answer, moments) := (Execution.startScript m w []).tell hooks fuel
  (answer.map fun ending => ending.map fun _ => (), moments)

/-- Call the function in a global variable. -/
def tellGlobal (name : String) (m : Machine Native) (w : World σ) : Telling σ Value :=
  if m.isReady then
    let callee := m.store.global (Utf8.encode name)
    if callee.isNil then
      let text := s!"function '{name}' is not defined, skipping"
      (some ⟨.ok .nil, m, w.report .debug text⟩, [])
    else (Execution.startCall m w [] callee []).tell hooks fuel
  else (some ⟨.error .halted, m, w⟩, [])

/-- Let the script hear the messages that wait, one at a time. -/
def tellMessages (m : Machine Native) (w : World σ) (heard : Nat) : Nat → Telling σ Nat
  | 0 => (none, [])
  | rounds + 1 =>
    match _h : m.store.mailbox.inbound with
    | [] => (some ⟨.ok heard, m, w⟩, [])
    | message :: rest =>
      match m.store.listener with
      | none =>
        let text := message.unheard m.contextId
        let (answer, moments) :=
          tellMessages (m.leaveMessages rest) (w.report .debug text) heard (rounds + 1)
        (answer, .takes message none :: moments)
      | some listener =>
        let (m, arguments) := (m.leaveMessages rest).present message
        let (answer, work) := (Execution.startCall m w [] listener arguments).tell hooks fuel
        let moments := .takes message (some listener) :: .hears m listener arguments :: work
        match answer with
        | none => (none, moments)
        | some ⟨.error error, m, w⟩ =>
          (some ⟨.error error, m, w⟩, moments ++ [.heard (.error error)])
        | some ⟨.ok value, m, w⟩ =>
          let (answer, more) := tellMessages m w (heard + 1) rounds
          (answer, moments ++ .heard (.ok value) :: more)
  termination_by rounds => (rounds, m.store.mailbox.inbound.length)
  decreasing_by
    · rw [_h]
      exact .right _ (Nat.lt_succ_self _)
    · exact .left _ _ (Nat.lt_succ_self _)

/-- Let the script hear the messages that wait, the oldest first. -/
def tellInbound (m : Machine Native) (w : World σ) : Telling σ Nat :=
  if m.isReady then tellMessages hooks fuel m w 0 fuel
  else (some ⟨.error .halted, m, w⟩, [])

/-- What is told of the body has its answer. -/
theorem tellScript_fst (m : Machine Native) (w : World σ) :
    (m.tellScript hooks fuel w).1 = m.executeScript (Native.system hooks) fuel w := rfl

/-- What is told of a call of a global function has its answer. -/
theorem tellGlobal_fst (name : String) (m : Machine Native) (w : World σ) :
    (m.tellGlobal hooks fuel name w).1 = m.callGlobal (Native.system hooks) fuel name [] w := by
  unfold tellGlobal callGlobal
  split
  · dsimp only
    split <;> rfl
  · rfl

section Delivery

variable {m : Machine Native} {message : Message} {rest : List Message}

/-- Without a message nothing is delivered. -/
theorem nextDelivery_of_nil (h : m.store.mailbox.inbound = []) (w : World σ) :
    m.nextDelivery w = (none, m, w) := by
  unfold nextDelivery
  rw [Store.nextDelivery_of_none (Mailbox.takeInbound_of_nil h)]

/-- A message that nobody hears is passed over. -/
theorem nextDelivery_of_listener_none (h : m.store.mailbox.inbound = message :: rest)
    (hlistener : m.store.listener = none) (w : World σ) :
    m.nextDelivery w =
      (m.leaveMessages rest).nextDelivery
        (w.report .debug (message.unheard m.contextId)) := by
  unfold nextDelivery
  rw [Store.nextDelivery_of_unheard (Mailbox.takeInbound_of_cons h) hlistener]
  rfl

/-- A message that is heard is presented to the listener. -/
theorem nextDelivery_of_listener {listener : Value} (h : m.store.mailbox.inbound = message :: rest)
    (hlistener : m.store.listener = some listener) (w : World σ) :
    m.nextDelivery w = (some (listener, ((m.leaveMessages rest).present message).2),
      ((m.leaveMessages rest).present message).1, w) := by
  unfold nextDelivery
  rw [Store.nextDelivery_of_heard (Mailbox.takeInbound_of_cons h) hlistener]
  rfl

end Delivery

/-- A round of hearing messages, if there is one that is heard. -/
theorem hearMessages_of_listener {m m' : Machine Native} {message : Message} {rest : List Message}
    {listener : Value} {arguments : List Value} (h : m.store.mailbox.inbound = message :: rest)
    (hlistener : m.store.listener = some listener)
    (hpresent : (m.leaveMessages rest).present message = (m', arguments)) (w : World σ)
    (heard rounds : Nat) :
    m.hearMessages (Native.system hooks) fuel w heard (rounds + 1) =
      match m'.callValue (Native.system hooks) fuel listener arguments w with
      | none => none
      | some ⟨.error error, m, w⟩ => some ⟨.error error, m, w⟩
      | some ⟨.ok _, m, w⟩ => m.hearMessages (Native.system hooks) fuel w (heard + 1) rounds := by
  rw [hearMessages, nextDelivery_of_listener h hlistener, hpresent]
  dsimp only
  match m'.callValue (Native.system hooks) fuel listener arguments w with
  | none | some ⟨.error _, _, _⟩ | some ⟨.ok _, _, _⟩ => rfl

/-- Messages that are told one at a time are heard round by round. -/
theorem tellMessages_fst (m : Machine Native) (w : World σ) (heard rounds : Nat) :
    (m.tellMessages hooks fuel w heard rounds).1 =
      m.hearMessages (Native.system hooks) fuel w heard rounds := by
  fun_induction tellMessages hooks fuel m w heard rounds with
  | case1 m w heard => rfl
  | case2 m w heard rounds hinbound =>
    unfold hearMessages
    rw [nextDelivery_of_nil hinbound]
  | case3 m w heard rounds message rest hinbound hlistener text answer moments hrest ih =>
    rw [hrest] at ih
    refine ih.trans ?_
    rw [hearMessages, hearMessages, nextDelivery_of_listener_none hinbound hlistener]
  | case4 m w heard rounds message rest hinbound listener hlistener m' arguments hpresent _ _
      htell =>
    have hcall : m'.callValue (Native.system hooks) fuel listener arguments w = none :=
      congrArg Prod.fst htell
    rw [hearMessages_of_listener hooks fuel hinbound hlistener hpresent, hcall]
  | case5 m w heard rounds message rest hinbound listener hlistener m' arguments hpresent _ _ error
      m₁ w₁ htell =>
    have hcall : m'.callValue (Native.system hooks) fuel listener arguments w =
        some ⟨.error error, m₁, w₁⟩ := congrArg Prod.fst htell
    rw [hearMessages_of_listener hooks fuel hinbound hlistener hpresent, hcall]
  | case6 m w heard rounds message rest hinbound listener hlistener m' arguments hpresent _ _ value
      m₁ w₁ answer more hmore htell ih =>
    have hcall : m'.callValue (Native.system hooks) fuel listener arguments w =
        some ⟨.ok value, m₁, w₁⟩ := congrArg Prod.fst htell
    rw [hmore] at ih
    rw [hearMessages_of_listener hooks fuel hinbound hlistener hpresent, hcall]
    exact ih

/-- What is told of hearing messages has its answer. -/
theorem tellInbound_fst (m : Machine Native) (w : World σ) :
    (m.tellInbound hooks fuel w).1 = m.processInbound (Native.system hooks) fuel w := by
  unfold tellInbound processInbound
  split
  · exact tellMessages_fst hooks fuel m w 0 fuel
  · rfl

end Machine

end Entries

/-- Work on one machine that tells what happens. -/
def Told (σ α : Type) :=
  Instance × World σ → Option (Except RuntimeError α × Instance × World σ) × List (Moment σ)

namespace Told

variable {σ α β : Type}

/-- After a success the second work is told as well. -/
def andThen (told : Told σ α) (next : α → Told σ β) : Told σ β := fun s =>
  match told s with
  | (none, moments) => (none, moments)
  | (some (.error e, s), moments) => (some (.error e, s), moments)
  | (some (.ok a, s), moments) =>
    let (answer, more) := next a s
    (answer, moments ++ more)

instance : Monad (Told σ) where
  pure a := fun s => (some (.ok a, s), [])
  bind := andThen

/-- Work in which nothing happens. -/
def silent (work : Turn σ α) : Told σ α := fun s => (work s, [])

/-- Enter the machine. -/
def enter (f : Machine Native → World σ → Telling σ α) : Told σ α := fun (i, w) =>
  let (answer, moments) := f i.machine w
  (answer.map fun ending =>
    (ending.result, { i with machine := ending.machine }, ending.world), moments)

/-- The work is what is told. -/
def Tells (told : Told σ α) (work : Turn σ α) : Prop := ∀ s, (told s).1 = work s

/-- Work of which nothing is told is told as it is. -/
theorem tells_silent (work : Turn σ α) : (silent work).Tells work := fun _ => rfl

/-- An entry is told as its telling has it. -/
theorem tells_enter {f : Machine Native → World σ → Telling σ α}
    {g : Machine Native → World σ → Option (Ending Native σ α)} (h : ∀ m w, (f m w).1 = g m w) :
    (enter f).Tells (Turn.enter g) := by
  intro (i, w)
  change ((f i.machine w).1).map _ = (g i.machine w).map _
  rw [h]

/-- Work that is told may be followed by more such work. -/
theorem Tells.bind {told : Told σ α} {work : Turn σ α} {next : α → Told σ β} {next' : α → Turn σ β}
    (h : told.Tells work) (hnext : ∀ a, (next a).Tells (next' a)) :
    (told >>= next).Tells (work >>= next') := by
  intro s
  rw [Work.bind_eq, ← h s]
  change (told.andThen next s).1 = _
  unfold andThen
  match told s with
  | (none, moments) => rfl
  | (some (.error e, s'), moments) => rfl
  | (some (.ok a, s'), moments) => exact hnext a s'

/-- Run the body of the script and its function `init`. -/
def begin (hooks : HookTable σ) (fuel : Nat) : Told σ Unit := do
  silent (Turn.update fun i => { i with stepped := true })
  enter (Machine.tellScript hooks fuel)
  let _ ← enter (Machine.tellGlobal hooks fuel "init")
  silent (Turn.update fun i => { i with state := .stepped })
  silent (Turn.report fun i => s!"{i.handle.text}: initialized")

/-- Hear the messages that wait and call the function `step`. -/
def round (hooks : HookTable σ) (fuel : Nat) : Told σ Unit := do
  let _ ← enter (Machine.tellInbound hooks fuel)
  let _ ← enter (Machine.tellGlobal hooks fuel "step")
  silent Turn.releaseStrings

/-- One turn of the script. -/
def turn (hooks : HookTable σ) (fuel : Nat) : Told σ Unit := do
  if !(← silent get).1.stepped then begin hooks fuel
  round hooks fuel

/-- The first part of a turn is told as it is. -/
theorem tells_begin (hooks : HookTable σ) (fuel : Nat) :
    (begin hooks fuel).Tells (Instance.begin hooks fuel) :=
  (tells_silent _).bind fun _ =>
    (tells_enter (Machine.tellScript_fst hooks fuel)).bind fun _ =>
    (tells_enter (Machine.tellGlobal_fst hooks fuel "init")).bind fun _ =>
    (tells_silent _).bind fun _ => tells_silent _

/-- What is told of a turn is the turn. -/
theorem tells_turn (hooks : HookTable σ) (fuel : Nat) :
    (turn hooks fuel).Tells (Instance.turn hooks fuel) := by
  let plain : Turn σ Unit := do
    let _ ← Turn.enter (Machine.processInbound (Native.system hooks) fuel)
    let _ ← Turn.enter (Machine.callGlobal (Native.system hooks) fuel "step" [])
    Turn.releaseStrings
  have hround : (round hooks fuel).Tells plain :=
    (tells_enter (Machine.tellInbound_fst hooks fuel)).bind fun _ =>
      (tells_enter (Machine.tellGlobal_fst hooks fuel "step")).bind fun _ => tells_silent _
  intro s
  change ((if !s.1.stepped then begin hooks fuel >>= fun _ => round hooks fuel
      else round hooks fuel : Told σ Unit) s).1 =
    (if !s.1.stepped then Instance.begin hooks fuel >>= fun _ => plain else plain : Turn σ Unit) s
  split
  · exact (tells_begin hooks fuel).bind (fun _ => hround) s
  · exact hround s

end Told

end Swarm
