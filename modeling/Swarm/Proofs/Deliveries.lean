import Swarm.Proofs.Operations

/-!
# What a turn delivers

A message that is taken is dropped, or heard by the function that listens at that
moment; this is its delivery. Apart from steps of execution the moments of a turn
are those of its deliveries, one after the other. A turn that succeeds has
delivered all messages that wait, and one that fails in a delivery ends with it.
-/

namespace Swarm

variable {σ α β : Type}

/-- The moment is a step of execution. -/
def Moment.isWork : Moment σ → Bool
  | .works .. => true
  | _ => false

/-- What has become of a message that was taken. -/
inductive Delivery where
  /-- Nobody listened. -/
  | dropped (message : Message)
  /-- The listener was called in the machine; the string was to hold the payload. -/
  | heard (message : Message) (listener : Value) (m : Machine Native) (payload : StringId)
    (result : Except RuntimeError Value)

namespace Delivery

/-- The message of a delivery. -/
def message : Delivery → Message
  | .dropped message => message
  | .heard message .. => message

/-- What happens in a delivery, apart from the execution itself. -/
def moments : Delivery → List (Moment σ)
  | .dropped message => [.takes message none]
  | .heard message listener m payload result =>
    [.takes message (some listener),
      .hears m listener [.int (Int64.ofNat message.sender.toNat), .str payload], .heard result]

/-- The string holds the payload. -/
def Right : Delivery → Prop
  | .dropped _ => True
  | .heard message _ m payload _ => m.store.strings.Stores payload message.payload

/-- The call has ended with an error. -/
def Failed : Delivery → Prop
  | .heard _ _ _ _ (.error _) => True
  | _ => False

end Delivery

/-- The moments other than steps of execution are those of the deliveries, one after the other; only
the last one can have failed. -/
structure Conveys (moments : List (Moment σ)) (deliveries : List Delivery) : Prop where
  told : moments.filter (!·.isWork) = deliveries.flatMap Delivery.moments
  right : ∀ d ∈ deliveries, d.Right
  last : ∀ k d, deliveries[k]? = some d → d.Failed → k + 1 = deliveries.length

namespace Conveys

variable {moments more : List (Moment σ)} {deliveries others : List Delivery}

/-- Steps of execution deliver nothing. -/
theorem of_works (h : ∀ moment ∈ moments, moment.isWork = true) : Conveys moments [] where
  told := by
    rw [List.flatMap_nil, List.filter_eq_nil_iff]
    simpa using h
  right := List.forall_mem_nil _
  last k d hk := by simp at hk

/-- Deliveries of which none has failed may be followed by others. -/
theorem append (h : Conveys moments deliveries) (hsucceed : ∀ d ∈ deliveries, ¬d.Failed)
    (h' : Conveys more others) : Conveys (moments ++ more) (deliveries ++ others) where
  told := by rw [List.filter_append, List.flatMap_append, h.told, h'.told]
  right d hd := by
    rcases List.mem_append.mp hd with hd | hd
    · exact h.right d hd
    · exact h'.right d hd
  last k d hk hfailed := by
    by_cases hlt : k < deliveries.length
    · rw [List.getElem?_append_left hlt] at hk
      exact absurd hfailed (hsucceed d (List.mem_of_getElem? hk))
    · rw [List.getElem?_append_right (by omega)] at hk
      have hlast := h'.last _ d hk hfailed
      rw [List.length_append]
      omega

/-- One delivery, around which there may be steps of execution. -/
theorem of_delivery {d : Delivery} (htold : moments.filter (!·.isWork) = d.moments)
    (hright : d.Right) : Conveys moments [d] where
  told := by rw [htold, List.flatMap_singleton]
  right d' hd' := by
    rw [List.mem_singleton.mp hd']
    exact hright
  last k d' hk _ := by
    obtain ⟨hlt, _⟩ := List.getElem?_eq_some_iff.mp hk
    rw [List.length_singleton] at *
    omega

/-- The messages that are taken are those of the deliveries. -/
theorem taken_eq (h : Conveys moments deliveries) :
    moments.filterMap Moment.taken? = deliveries.map Delivery.message := by
  have hwork : moments.filterMap Moment.taken? =
      (moments.filter (!·.isWork)).filterMap Moment.taken? := by
    rw [List.filterMap_filter]
    congr 1
    funext moment
    cases moment <;> rfl
  rw [hwork, h.told]
  clear h hwork
  induction deliveries with
  | nil => rfl
  | cons d rest ih =>
    rw [List.flatMap_cons, List.filterMap_append, ih, List.map_cons]
    cases d <;> rfl

end Conveys

/-- A sound machine whose stack is within its bound. -/
structure Machine.Proper (m : Machine Native) : Prop where
  sound : m.Sound
  tidy : m.Tidy fun _ => True

section Telling

open Stage

variable {hooks : HookTable σ} {fuel : Nat} {m m' : Machine Native} {w : World σ}
  {moments : List (Moment σ)}

/-- What a path makes of a proper machine, and what it exchanges. -/
theorem Stage.Path.proper (h : Path hooks (.idle m) moments (.idle m')) (hm : m.Proper) :
    m'.Proper ∧ m.Exchanges moments m' := by
  have hfails : (Native.system hooks).FailsAs (fun _ => True) m := fun _ _ _ _ _ _ => trivial
  obtain ⟨htidy, hexchanges⟩ := h.exchanges (fun _ _ => trivial) hm.tidy hfails
  exact ⟨⟨(h.sound hm.sound).1, htidy⟩, hexchanges⟩

/-- All moments of an execution are steps of it. -/
theorem Execution.isWork_trail (e : Execution Native Traversal σ) :
    ∀ moment ∈ e.trail hooks fuel, moment.isWork = true := by
  fun_induction trail hooks fuel e with
  | case1 | case2 => exact List.forall_mem_nil _
  | case3 fuel e he e' ih => exact List.forall_mem_cons.mpr ⟨rfl, ih⟩

/-- All that an entry tells are steps of execution. -/
theorem Execution.isWork_of_tell {e : Execution Native Traversal σ}
    {answer : Option (Ending Native σ Value)} (h : e.tell hooks fuel = (answer, moments)) :
    ∀ moment ∈ moments, moment.isWork = true := by
  obtain ⟨_, rfl⟩ := Prod.mk.inj h
  exact e.isWork_trail

/-- All that a call of a global function tells are steps of execution. -/
theorem Machine.isWork_tellGlobal (hooks : HookTable σ) (fuel : Nat) (name : String)
    (m : Machine Native) (w : World σ) :
    ∀ moment ∈ (m.tellGlobal hooks fuel name w).2, moment.isWork = true := by
  unfold tellGlobal
  split
  · dsimp only
    split
    · exact List.forall_mem_nil _
    · exact Execution.isWork_trail _
  · exact List.forall_mem_nil _

/-- An answer comes with the deliveries that are told; if it is a success, none of them has failed
and the machine is as it should be. -/
def Telling.Delivers (telling : Telling σ α) (post : Machine Native → Prop) : Prop :=
  ∀ ending, telling.1 = some ending → ∃ deliveries, Conveys telling.2 deliveries ∧
    ∀ a, ending.result = .ok a → post ending.machine ∧ ∀ d ∈ deliveries, ¬d.Failed

/-- Without a delivery nothing can have failed. -/
theorem Telling.delivers_of_works {telling : Telling σ α} {post : Machine Native → Prop}
    (hworks : ∀ moment ∈ telling.2, moment.isWork = true)
    (hpost : ∀ ending a, telling.1 = some ending → ending.result = .ok a → post ending.machine) :
    telling.Delivers post :=
  fun ending hending => ⟨[], .of_works hworks,
    fun a ha => ⟨hpost ending a hending ha, List.forall_mem_nil _⟩⟩

/-- The arguments for the listener are the sender and a string with the payload. -/
theorem Machine.exists_of_present {message : Message} {rest : List Message}
    {arguments : List Value} (hm : m.Proper)
    (hpresent : (m.leaveMessages rest).present message = (m', arguments)) :
    ∃ payload, m'.store.strings.Stores payload message.payload ∧
      arguments = [.int (Int64.ofNat message.sender.toNat), .str payload] := by
  have hm' : ((m.leaveMessages rest).present message).1 = m' := congrArg Prod.fst hpresent
  have harguments : ((m.leaveMessages rest).present message).2 = arguments :=
    congrArg Prod.snd hpresent
  refine ⟨(m.store.strings.intern message.payload).2, ?_, harguments.symm⟩
  rw [← hm']
  exact hm.sound.store.consistent.stores_intern _

/-- A call to have a message heard is the delivery of the message. -/
theorem Machine.conveys_heard {message : Message} {rest : List Message} {listener : Value}
    {arguments : List Value} {work : List (Moment σ)} (hm : m.Proper)
    (hpresent : (m.leaveMessages rest).present message = (m', arguments))
    (hwork : ∀ moment ∈ work, moment.isWork = true) (result : Except RuntimeError Value) :
    ∃ d : Delivery, (d.Failed ↔ ∃ error, result = .error error) ∧
      Conveys (.takes message (some listener) :: .hears m' listener arguments :: work ++
        [.heard result]) [d] := by
  obtain ⟨payload, hstores, rfl⟩ := exists_of_present hm hpresent
  refine ⟨.heard message listener m' payload result, ?_, .of_delivery ?_ hstores⟩
  · cases result <;> simp [Delivery.Failed]
  · have hnone : work.filter (!·.isWork) = [] := by
      rw [List.filter_eq_nil_iff]
      simpa using hwork
    rw [List.filter_append, List.filter_cons_of_pos rfl, List.filter_cons_of_pos rfl, hnone]
    rfl

/-- All messages that wait are taken, unless a call to have one heard fails. -/
theorem Machine.delivers_tellMessages (hm : m.Proper) (w : World σ) (heard rounds : Nat) :
    (m.tellMessages hooks fuel w heard rounds).Delivers
      fun m' => m'.store.mailbox.inbound = [] := by
  revert hm
  -- A message is dropped (`case3`), or it is heard without an answer, with an error or with a
  -- success (`case4` to `case6`).
  fun_induction tellMessages hooks fuel m w heard rounds with
  | case1 m w heard =>
    intro hm ending heq
    cases heq
  | case2 m w heard rounds hinbound =>
    intro hm
    refine Telling.delivers_of_works (List.forall_mem_nil _) fun ending _ heq _ => ?_
    cases heq
    exact hinbound
  | case3 m w heard rounds message rest hinbound hlistener text answer moments hrest ih =>
    intro hm ending heq
    have hdrop : Path hooks (.idle m) [.takes message none] (.idle (m.leaveMessages rest)) :=
      (Moves.drop hinbound hlistener).path
    rw [hrest] at ih
    obtain ⟨deliveries, hconveys, hok⟩ := ih (hdrop.proper hm).1 ending heq
    have hfirst : Conveys [Moment.takes (σ := σ) message none] [.dropped message] :=
      .of_delivery rfl trivial
    have hsucceed : ∀ d ∈ [Delivery.dropped message], ¬d.Failed := by simp [Delivery.Failed]
    refine ⟨_, hfirst.append hsucceed hconveys, fun a ha => ?_⟩
    obtain ⟨hempty, hnone⟩ := hok a ha
    exact ⟨hempty, List.forall_mem_cons.mpr ⟨id, hnone⟩⟩
  | case4 m w heard rounds message rest hinbound listener hlistener m' arguments hpresent work
      moments htell =>
    intro hm ending heq
    cases heq
  | case5 m w heard rounds message rest hinbound listener hlistener m' arguments hpresent work
      moments error m₁ w₁ htell =>
    intro hm ending heq
    cases heq
    have hwork := Execution.isWork_of_tell htell
    obtain ⟨d, _, hconveys⟩ := conveys_heard hm hpresent hwork (.error error)
    refine ⟨_, hconveys, fun a ha => ?_⟩
    cases ha
  | case6 m w heard rounds message rest hinbound listener hlistener m' arguments hpresent work
      moments value m₁ w₁ answer more hmore htell ih =>
    intro hm ending heq
    have hwork := Execution.isWork_of_tell htell
    obtain ⟨d, hfailed, hfirst⟩ := conveys_heard hm hpresent hwork (.ok value)
    obtain ⟨_, hheard⟩ := path_hear hinbound hlistener hpresent htell
    rw [hmore] at ih
    obtain ⟨deliveries, hconveys, hok⟩ := ih ((hheard _ rfl).proper hm).1 ending heq
    have hsucceed : ∀ d' ∈ [d], ¬d'.Failed := by simp [hfailed]
    have hall := hfirst.append hsucceed hconveys
    rw [List.append_assoc] at hall
    refine ⟨_, hall, fun a ha => ?_⟩
    obtain ⟨hempty, hnone⟩ := hok a ha
    exact ⟨hempty, List.forall_mem_cons.mpr ⟨hsucceed d (List.mem_singleton_self d), hnone⟩⟩

/-- Hearing messages takes all that wait, unless a call to have one heard fails. -/
theorem Machine.delivers_tellInbound (hm : m.Proper) (w : World σ) :
    (m.tellInbound hooks fuel w).Delivers fun m' => m'.store.mailbox.inbound = [] := by
  unfold tellInbound
  split
  · exact delivers_tellMessages hm w 0 fuel
  · refine Telling.delivers_of_works (List.forall_mem_nil _) fun ending a heq ha => ?_
    cases heq
    cases ha

/-- Steps of execution take no messages. -/
theorem filterMap_taken_of_works (h : ∀ moment ∈ moments, moment.isWork = true) :
    moments.filterMap Moment.taken? = [] :=
  (Conveys.of_works h).taken_eq

/-- Calling a function of the script leaves the messages that wait. -/
theorem Machine.delivers_tellGlobal (hm : m.Proper) (name : String) (w : World σ) :
    (m.tellGlobal hooks fuel name w).Delivers
      fun m' => m'.store.mailbox.inbound = m.store.mailbox.inbound := by
  have hworks := isWork_tellGlobal hooks fuel name m w
  refine Telling.delivers_of_works hworks fun ending _ hending _ => ?_
  obtain ⟨t, hpath, hends⟩ := travels_tellGlobal hooks fuel name m w
  rw [hends ending hending] at hpath
  have hinbound := (hpath.proper hm).2.inbound
  rw [filterMap_taken_of_works hworks] at hinbound
  exact hinbound.symm

end Telling

namespace Told

variable {told : Told σ α} {next : α → Told σ β} {hooks : HookTable σ} {fuel : Nat}
  {pre mid post : Machine Native → Prop}

/-- From a proper machine the work comes with the deliveries that are told; if it succeeds, none of
them has failed and the machine is as it should be. -/
def Delivers (told : Told σ α) (pre post : Machine Native → Prop) : Prop :=
  ∀ s, s.1.machine.Proper → pre s.1.machine → ∀ result s', (told s).1 = some (result, s') →
    ∃ deliveries, Conveys (told s).2 deliveries ∧ ∀ a, result = .ok a →
      (s'.1.machine.Proper ∧ post s'.1.machine) ∧ ∀ d ∈ deliveries, ¬d.Failed

/-- A change of the script delivers nothing. -/
theorem delivers_modify {f : Instance × World σ → Instance × World σ}
    (hf : ∀ s, s.1.machine.Proper → pre s.1.machine →
      (f s).1.machine.Proper ∧ post (f s).1.machine) :
    (silent (modify f)).Delivers pre post := by
  intro s hproper hpre result s' heq
  cases heq
  exact ⟨[], .of_works (List.forall_mem_nil _),
    fun _ _ => ⟨hf s hproper hpre, List.forall_mem_nil _⟩⟩

/-- An entry delivers what its telling does. -/
theorem delivers_enter {f : Machine Native → World σ → Telling σ α}
    (htravels : ∀ m w, (f m w).Travels hooks m)
    (hf : ∀ m w, m.Proper → pre m → (f m w).Delivers post) : (enter f).Delivers pre post := by
  intro (i, w) hproper hpre result s' heq
  obtain ⟨ending, hending, heq⟩ := Option.map_eq_some_iff.mp heq
  obtain ⟨t, hpath, hends⟩ := htravels i.machine w
  rw [hends ending hending] at hpath
  obtain ⟨deliveries, hconveys, hok⟩ := hf i.machine w hproper hpre ending hending
  cases heq
  refine ⟨deliveries, hconveys, fun a ha => ?_⟩
  obtain ⟨hpost, hnone⟩ := hok a ha
  exact ⟨⟨(hpath.proper hproper).1, hpost⟩, hnone⟩

/-- Work that delivers may be followed by more such work. -/
theorem Delivers.bind (h : told.Delivers pre mid) (hnext : ∀ a, (next a).Delivers mid post) :
    (told >>= next).Delivers pre post := by
  intro s hproper hpre result s' heq
  have hfirst := h s hproper hpre
  change ((told.andThen next) s).1 = _ at heq
  change ∃ deliveries, Conveys ((told.andThen next) s).2 deliveries ∧ _
  unfold andThen at *
  cases htold : told s with
  | mk answer moments =>
    rw [htold] at hfirst heq
    match answer with
    | none => cases heq
    | some (.error e, s₁) =>
      cases heq
      obtain ⟨deliveries, hconveys, _⟩ := hfirst _ _ rfl
      exact ⟨deliveries, hconveys, nofun⟩
    | some (.ok a, s₁) =>
      obtain ⟨deliveries, hconveys, hok⟩ := hfirst _ _ rfl
      obtain ⟨⟨hproper₁, hmid⟩, hnone⟩ := hok a rfl
      obtain ⟨more, hmore, hok'⟩ := hnext a s₁ hproper₁ hmid result s' heq
      refine ⟨_, hconveys.append hnone hmore, fun a' ha' => ?_⟩
      obtain ⟨hend, hnone'⟩ := hok' a' ha'
      exact ⟨hend, fun d hd => (List.mem_append.mp hd).elim (hnone d) (hnone' d)⟩

variable (hooks fuel)

/-- The first part of a turn delivers nothing. -/
theorem delivers_begin : (begin hooks fuel).Delivers (fun _ => True) fun _ => True := by
  have hupdate (f : Instance × World σ → Instance × World σ)
      (hf : ∀ s, (f s).1.machine = s.1.machine) :
      (silent (modify f)).Delivers (fun _ => True) fun _ => True :=
    delivers_modify fun s hproper _ => ⟨(hf s).symm ▸ hproper, trivial⟩
  have hscript (m : Machine Native) (w : World σ) :
      (m.tellScript hooks fuel w).Delivers fun _ => True :=
    Telling.delivers_of_works (Execution.isWork_trail _) fun _ _ _ _ => trivial
  have hinit (m : Machine Native) (w : World σ) :
      (m.tellGlobal hooks fuel "init" w).Delivers fun _ => True :=
    Telling.delivers_of_works (Machine.isWork_tellGlobal hooks fuel "init" m w)
      fun _ _ _ _ => trivial
  refine (hupdate _ ?_).bind fun _ =>
    (delivers_enter (Machine.travels_tellScript hooks fuel) fun m w _ _ => hscript m w).bind
      fun _ =>
    (delivers_enter (Machine.travels_tellGlobal hooks fuel "init") fun m w _ _ => hinit m w).bind
      fun _ =>
    (hupdate _ ?_).bind fun _ => hupdate _ ?_
  all_goals exact fun _ => rfl

/-- After hearing the messages that wait none is left, and none comes in the rest of the turn. -/
theorem delivers_round :
    (round hooks fuel).Delivers (fun _ => True) fun m => m.store.mailbox.inbound = [] := by
  have hstep (m : Machine Native) (w : World σ) (hm : m.Proper)
      (hinbound : m.store.mailbox.inbound = []) :
      (m.tellGlobal hooks fuel "step" w).Delivers fun m => m.store.mailbox.inbound = [] := by
    intro ending hending
    obtain ⟨deliveries, hconveys, hok⟩ := Machine.delivers_tellGlobal hm "step" w ending hending
    refine ⟨deliveries, hconveys, fun a ha => ?_⟩
    obtain ⟨hsame, hnone⟩ := hok a ha
    exact ⟨hsame.trans hinbound, hnone⟩
  exact (delivers_enter (Machine.travels_tellInbound hooks fuel)
      fun m w hm _ => Machine.delivers_tellInbound hm w).bind fun _ =>
    (delivers_enter (Machine.travels_tellGlobal hooks fuel "step") hstep).bind fun _ =>
    delivers_modify fun s hproper hinbound =>
      ⟨⟨hproper.sound.released, Machine.Becomes.released.tidy hproper.tidy⟩, hinbound⟩

/-- A turn that succeeds has delivered all messages. -/
theorem delivers_turn :
    (turn hooks fuel).Delivers (fun _ => True) fun m => m.store.mailbox.inbound = [] := by
  intro s
  rw [turn_apply]
  split
  · exact ((delivers_begin hooks fuel).bind fun _ => delivers_round hooks fuel) s
  · exact delivers_round hooks fuel s

end Told

end Swarm
