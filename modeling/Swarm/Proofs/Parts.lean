import Swarm.Proofs.History
import Swarm.Proofs.Letters

/-!
# The parts of a tick as functions

On loaded machines the parts of a tick that surround the steps cannot fail. They
are functions of the state of the tick: preparing an agent changes the store of
its machine, and routing empties its outbound queue and adds letters to the mail.
Machines that they are not about do not notice them.
-/

namespace Swarm

variable {σ : Type}

/-- Empty the queue of payloads sent by the script. -/
def Store.clearOutbound (s : Store Native) : Store Native :=
  { s with mailbox := { s.mailbox with outbound := [] } }

namespace Bridge

variable {b b' : Bridge σ} {vm other : Handle} {i : Instance} {f g : Store Native → Store Native}

/-- Change the store of a machine; nothing happens if it is not loaded. -/
def adjust (b : Bridge σ) (vm : Handle) (f : Store Native → Store Native) : Bridge σ :=
  { b with
    instances := b.instances.modify vm.index fun i => { i with machine := i.machine.mapStore f } }

/-- A handle within the count of machines is found. -/
theorem exists_find_of_lt (h : vm.index < b.vmCount) : ∃ i, b.find vm = .ok i :=
  ⟨_, find_of_instance? (Array.getElem?_eq_getElem h)⟩

/-- A handle that is found is within the count of machines. -/
theorem lt_vmCount_of_find (h : b.find vm = .ok i) : vm.index < b.vmCount :=
  (Array.getElem?_eq_some_iff.mp (getElem?_of_find h)).1

/-- Changing a store leaves the count of machines. -/
theorem vmCount_adjust : (b.adjust vm f).vmCount = b.vmCount := Array.size_modify

/-- Changing a store leaves the other instances. -/
theorem instance?_adjust_ne (hne : vm ≠ other) :
    (b.adjust vm f).instance? other = b.instance? other := by
  unfold instance? adjust
  rw [Array.getElem?_modify, if_neg (Handle.index_ne hne)]

/-- The instance whose store is changed has the changed store. -/
theorem instance?_adjust_self : (b.adjust vm f).instance? vm =
    (b.instance? vm).map fun i => { i with machine := i.machine.mapStore f } := by
  unfold instance? adjust
  rw [Array.getElem?_modify, if_pos rfl]

/-- Changing the store of a loaded machine is putting the machine back with another store. -/
theorem replace_mapStore (hfind : b.find vm = .ok i) :
    b.replace vm { i with machine := i.machine.mapStore f } = b.adjust vm f := by
  obtain ⟨hlt, rfl⟩ := Array.getElem?_eq_some_iff.mp (getElem?_of_find hfind)
  have hinstances : b.instances.setIfInBounds vm.index
      { b.instances[vm.index] with machine := b.instances[vm.index].machine.mapStore f } =
      (b.adjust vm f).instances := by
    apply Array.ext_getElem?
    intro k
    rw [adjust, Array.getElem?_setIfInBounds, Array.getElem?_modify]
    by_cases hk : vm.index = k
    · subst hk
      simp [hlt]
    · simp [hk]
  unfold replace
  rw [hinstances]
  rfl

/-- Changing the store of a loaded machine succeeds. -/
theorem updateStore_eq (h : vm.index < b.vmCount) : b.updateStore vm f = .ok (b.adjust vm f) := by
  obtain ⟨i, hfind⟩ := exists_find_of_lt h
  unfold updateStore
  rw [hfind, ← replace_mapStore hfind]
  rfl

/-- Two changes of one store are one change. -/
theorem adjust_adjust : (b.adjust vm f).adjust vm g = b.adjust vm fun s => g (f s) := by
  unfold adjust
  congr 1
  apply Array.ext_getElem?
  intro k
  simp only [Array.getElem?_modify]
  split
  · rw [Option.map_map]
    rfl
  · rfl

/-- Changing nothing in a store leaves the bridge. -/
theorem adjust_self : (b.adjust vm fun s => s) = b := by
  unfold adjust
  have hmodify : (b.instances.modify vm.index fun i =>
      { i with machine := i.machine.mapStore fun s => s }) = b.instances := by
    apply Array.ext_getElem?
    intro k
    rw [Array.getElem?_modify]
    split <;> simp [Machine.mapStore]
  rw [hmodify]

/-- Changes of different machines do not interfere. -/
theorem adjust_comm (hne : vm ≠ other) :
    (b.adjust vm f).adjust other g = (b.adjust other g).adjust vm f := by
  unfold adjust
  congr 1
  apply Array.ext_getElem?
  intro k
  simp only [Array.getElem?_modify]
  by_cases hk : vm.index = k
  · have hother : other.index ≠ k := fun h => Handle.index_ne hne (hk.trans h.symm)
    simp [hk, hother]
  · simp [hk]

/-- Putting an instance back does not interfere with changing another store. -/
theorem replace_adjust (hne : vm ≠ other) :
    (b.adjust vm f).replace other i = (b.replace other i).adjust vm f := by
  unfold adjust replace
  congr 1
  apply Array.ext_getElem?
  intro k
  simp only [Array.getElem?_modify, Array.getElem?_setIfInBounds, Array.size_modify]
  by_cases hk : vm.index = k
  · have hother : other.index ≠ k := fun h => Handle.index_ne hne (hk.trans h.symm)
    simp [hk, hother]
  · simp [hk]

/-- The payloads that a script has sent. -/
def outbound (b : Bridge σ) (vm : Handle) : List Bytes :=
  match b.instance? vm with
  | some i => i.machine.store.mailbox.outbound
  | none => []

/-- The payloads sent by a machine that is found are in its mailbox. -/
theorem outbound_eq (hfind : b.find vm = .ok i) :
    b.outbound vm = i.machine.store.mailbox.outbound := by
  unfold outbound instance?
  rw [getElem?_of_find hfind]

/-- The payloads sent depend only on the instance of the handle. -/
theorem outbound_congr (h : b'.instance? vm = b.instance? vm) : b'.outbound vm = b.outbound vm := by
  unfold outbound
  rw [h]

/-- Whether a machine has stopped for good. -/
def isStopped (b : Bridge σ) (vm : Handle) : Bool :=
  match b.instance? vm with
  | some i => !i.machine.isReady
  | none => true

/-- Asking a loaded machine whether it is done answers whether it has stopped. -/
theorem done_of_lt (hloaded : vm.index < b.vmCount) : b.done vm = .ok (b.isStopped vm) := by
  obtain ⟨i, hfind⟩ := exists_find_of_lt hloaded
  have hinstance : b.instance? vm = some i := getElem?_of_find hfind
  unfold done isStopped
  rw [hfind, hinstance]
  rfl

/-- Changes that agree on the store of a machine make the same bridge. -/
theorem adjust_congr (hfind : b.find vm = .ok i) (h : f i.machine.store = g i.machine.store) :
    b.adjust vm f = b.adjust vm g := by
  rw [← replace_mapStore hfind, ← replace_mapStore hfind]
  unfold Machine.mapStore
  rw [h]

/-- Taking payloads one by one empties the queue if the count is large enough. -/
theorem takeOutbound_eq {count : Nat} (h : vm.index < b.vmCount)
    (hcount : (b.outbound vm).length < count) :
    b.takeOutbound vm count = .ok (b.outbound vm, b.adjust vm Store.clearOutbound) := by
  induction count generalizing b with
  | zero => omega
  | succ count ih =>
    obtain ⟨i, hfind⟩ := exists_find_of_lt h
    have hnext : b.nextOutbound vm = .ok ((b.outbound vm).head?,
        b.adjust vm fun s => s.takeOutbound.2) := by
      unfold nextOutbound
      rw [hfind, outbound_eq hfind, ← replace_mapStore hfind]
      rfl
    unfold takeOutbound
    rw [hnext]
    cases houtbound : b.outbound vm with
    | nil =>
      rw [outbound_eq hfind] at houtbound
      have hclear : b.adjust vm (fun s => s.takeOutbound.2) = b.adjust vm Store.clearOutbound := by
        apply adjust_congr hfind
        simp [Store.takeOutbound, Mailbox.takeOutbound, Store.clearOutbound, houtbound]
      rw [hclear]
      rfl
    | cons payload rest =>
      have hrest : (b.adjust vm fun s => s.takeOutbound.2).outbound vm = rest := by
        have hinstance : b.instance? vm = some i := getElem?_of_find hfind
        have htail : (b.outbound vm).tail = rest := by rw [houtbound, List.tail_cons]
        rw [outbound_eq hfind] at htail
        unfold outbound
        rw [instance?_adjust_self, hinstance]
        exact htail
      have hlt : vm.index < (b.adjust vm fun s => s.takeOutbound.2).vmCount := by
        rwa [vmCount_adjust]
      have hlength : rest.length < count := by
        rw [houtbound, List.length_cons] at hcount
        omega
      have htake := ih hlt (by rwa [hrest])
      rw [hrest, adjust_adjust] at htake
      simp only [bind, Except.bind, List.head?_cons, htake]
      rfl

/-- Draining the queue answers all payloads sent and leaves none. -/
theorem drainOutbound_eq (h : vm.index < b.vmCount) :
    b.drainOutbound vm = .ok (b.outbound vm, b.adjust vm Store.clearOutbound) := by
  obtain ⟨i, hfind⟩ := exists_find_of_lt h
  unfold drainOutbound
  rw [hfind]
  refine takeOutbound_eq h ?_
  rw [outbound_eq hfind]
  exact Nat.lt_succ_self _

/-- A step does not notice changes of other machines. -/
theorem step_adjust (hne : vm ≠ other) (fuel : Nat) : (b.adjust vm f).step fuel other =
    (b.step fuel other).map fun
      | .ok (outcome, b') => .ok (outcome, b'.adjust vm f)
      | .error e => .error e := by
  unfold step
  rw [find_congr (instance?_adjust_ne hne)]
  cases b.find other with
  | error e => rfl
  | ok i =>
    dsimp only
    rw [Option.map_map]
    change (i.step b.hooks fuel b.world).map _ = _
    congr 1
    funext ⟨outcome, i', world⟩
    change Except.ok (outcome, { (b.adjust vm f).replace other i' with world }) = _
    rw [replace_adjust hne]
    rfl

section Stepping

variable {fuel : Nat} {outcome : StepOutcome}

/-- A step leaves the other instances. -/
theorem instance?_step_ne (hstep : b.step fuel vm = some (.ok (outcome, b'))) (hne : other ≠ vm) :
    b'.instance? other = b.instance? other := by
  obtain ⟨i, i', world, _, _, rfl⟩ := exists_of_step hstep
  exact instance?_replace_ne rfl hne

/-- A step leaves the count of machines. -/
theorem vmCount_step (hstep : b.step fuel vm = some (.ok (outcome, b'))) :
    b'.vmCount = b.vmCount := by
  obtain ⟨i, i', world, _, _, rfl⟩ := exists_of_step hstep
  exact Array.size_setIfInBounds

/-- A step leaves the slots. -/
theorem hooks_step (hstep : b.step fuel vm = some (.ok (outcome, b'))) : b'.hooks = b.hooks := by
  obtain ⟨i, i', world, _, _, rfl⟩ := exists_of_step hstep
  rfl

end Stepping

end Bridge

/-- The sender of a message that is fed is known by the same id again. -/
theorem contextIdOf_toNat (id : UInt16) : contextIdOf (id.toNat : Int) = id := by
  unfold contextIdOf
  have hlt : id.toNat < 65536 := id.toNat_lt
  have hmod : ((id.toNat : Int) % 65536).toNat = id.toNat := by omega
  rw [hmod, UInt16.ofNat_toNat]

/-- The work succeeds on a loaded machine and does nothing but change its store. -/
def Ticking.Adjusts (vm : Handle) (f : Store Native → Store Native) (work : Ticking σ PUnit) :
    Prop :=
  ∀ s, vm.index < s.bridge.vmCount →
    work s = some (.ok ⟨⟩, { s with bridge := s.bridge.adjust vm f })

namespace Ticking

variable {vm : Handle}

/-- A change of the store is work that does nothing else. -/
theorem adjusts_change (vm : Handle) (f : Store Native → Store Native) :
    Adjusts vm f (change fun b : Bridge σ => b.updateStore vm f) := by
  intro s hloaded
  unfold change
  dsimp only
  rw [Bridge.updateStore_eq hloaded]

/-- Changes of a store in a loop are made in the order of the list. -/
theorem adjusts_forIn {γ : Type} {body : γ → Ticking σ PUnit} {f : γ → Store Native → Store Native}
    (hbody : ∀ x, Adjusts vm (f x) (body x)) (xs : List γ) :
    Adjusts vm (fun store => xs.foldl (fun store x => f x store) store)
      (forIn xs ⟨⟩ fun x _ => body x >>= fun _ => pure (.yield ⟨⟩)) := by
  induction xs with
  | nil =>
    intro s _
    simp only [List.foldl_nil, Bridge.adjust_self]
    rfl
  | cons x rest ih =>
    intro s hloaded
    have hrest := ih { s with bridge := s.bridge.adjust vm (f x) }
      (by rwa [Bridge.vmCount_adjust])
    rw [Bridge.adjust_adjust] at hrest
    simp only [List.forIn_cons, bind_assoc, pure_bind]
    rw [Work.bind_ok (hbody x s hloaded)]
    exact hrest

end Ticking

/-- Add letters to the mail for the next tick, and count them. -/
def TickState.send (s : TickState σ) (letters : List Letter) : TickState σ :=
  { s with
    pending := s.pending.addAll letters
    report := { s.report with routed := s.report.routed + letters.length } }

/-- Letters that are sent one batch after the other are sent as one. -/
theorem TickState.send_append (s : TickState σ) (letters others : List Letter) :
    (s.send letters).send others = s.send (letters ++ others) := by
  unfold send
  dsimp only
  rw [Mail.addAll_append, List.length_append, Nat.add_assoc]

/-- Letters that are sent in a loop are sent in the order of the list. -/
theorem Ticking.forIn_send {γ : Type} {body : γ → Ticking σ PUnit} {letters : γ → List Letter}
    (hbody : ∀ x s, body x s = some (.ok ⟨⟩, s.send (letters x))) (xs : List γ)
    (s : TickState σ) :
    (forIn xs ⟨⟩ fun x _ => body x >>= fun _ => pure (.yield ⟨⟩) : Ticking σ PUnit) s =
      some (.ok ⟨⟩, s.send (xs.flatMap letters)) := by
  induction xs generalizing s with
  | nil => rfl
  | cons x rest ih =>
    simp only [List.forIn_cons, bind_assoc, pure_bind]
    rw [Work.bind_ok (hbody x s), List.flatMap_cons, ← TickState.send_append]
    exact ih _

namespace Hub

variable {h : Hub} {agent : Agent} {s : TickState σ}

/-- What an agent finds in its store when it takes its step: the agents that it sees and its own
position as they are in the hub, and its mail. -/
def briefing (h : Hub) (agent : Agent) (mail : Option (List Message)) (store : Store Native) :
    Store Native :=
  let own := h.position agent.contextId
  let store := (h.neighborsOf agent).foldl (fun store other =>
    store.addNeighbor ⟨other.contextId, (h.position other.contextId).relativeTo own⟩)
    store.resetNeighbors
  let (store, point) := store.newPoint own
  (mail.getD []).foldl Store.receive (store.setGlobal (Utf8.encode positionGlobal) point)

/-- Of its queues an agent finds only the one for its mail changed. -/
theorem mailbox_briefing (mail : Option (List Message)) (store : Store Native) :
    (h.briefing agent mail store).mailbox =
      { store.mailbox with inbound := store.mailbox.inbound ++ mail.getD [] } := by
  have hshow (others : List Agent) (store : Store Native) :
      (others.foldl (fun store other => store.addNeighbor ⟨other.contextId,
        (h.position other.contextId).relativeTo (h.position agent.contextId)⟩) store).mailbox =
        store.mailbox := by
    induction others generalizing store with
    | nil => rfl
    | cons other rest ih => exact ih _
  have hfeed (messages : List Message) (store : Store Native) :
      (messages.foldl Store.receive store).mailbox =
        { store.mailbox with inbound := store.mailbox.inbound ++ messages } := by
    induction messages generalizing store with
    | nil => simp
    | cons message rest ih =>
      rw [List.foldl_cons, ih]
      simp [Store.receive, Mailbox.receive]
  have hlocate (own : Position) (name : Bytes) (store : Store Native) :
      ((store.newPoint own).1.setGlobal name (store.newPoint own).2).mailbox = store.mailbox := rfl
  unfold briefing
  dsimp only
  rw [hfeed, hlocate, hshow]
  rfl

/-- The tick after an agent has been prepared. -/
def prepared (h : Hub) (agent : Agent) (s : TickState σ) : TickState σ :=
  { s with
    bridge := s.bridge.adjust agent.vm (h.briefing agent s.inbox[agent.contextId]?)
    inbox := s.inbox.erase agent.contextId }

/-- Preparing a loaded agent succeeds. -/
theorem prepare_eq (hloaded : agent.vm.index < s.bridge.vmCount) :
    h.prepare agent s = some (.ok (), h.prepared agent s) := by
  let own := h.position agent.contextId
  have hloaded' (f : Store Native → Store Native) :
      agent.vm.index < (s.bridge.adjust agent.vm f).vmCount := by rwa [Bridge.vmCount_adjust]
  have hreset := Ticking.adjusts_change (σ := σ) agent.vm Store.resetNeighbors
  have hshow := Ticking.adjusts_forIn (σ := σ) (fun other : Agent =>
    Ticking.adjusts_change agent.vm fun store => store.addNeighbor
      ⟨contextIdOf other.contextId.toNat, (h.position other.contextId).relativeTo own⟩)
    (h.neighborsOf agent)
  have hlocate := Ticking.adjusts_change (σ := σ) agent.vm fun store =>
    (store.newPoint own).1.setGlobal (Utf8.encode positionGlobal) (store.newPoint own).2
  have hfeed := Ticking.adjusts_forIn (σ := σ) (fun message : Message =>
    Ticking.adjusts_change agent.vm fun store => store.receive
      ⟨contextIdOf message.sender.toNat, message.payload⟩)
    (s.inbox[agent.contextId]?.getD [])
  unfold prepare
  refine (Work.bind_ok (hreset s hloaded)).trans ?_
  refine (Work.bind_ok (hshow _ (hloaded' _))).trans ?_
  rw [Bridge.adjust_adjust]
  refine (Work.bind_ok (hlocate _ (hloaded' _))).trans ?_
  rw [Bridge.adjust_adjust]
  have htake (bridge : Bridge σ) : Ticking.takeMail agent.contextId { s with bridge } =
    some (.ok s.inbox[agent.contextId]?,
      { s with bridge, inbox := s.inbox.erase agent.contextId }) := rfl
  refine (Work.bind_ok (htake _)).trans ?_
  refine (Work.bind_ok (hfeed _ (hloaded' _))).trans ?_
  rw [Bridge.adjust_adjust]
  simp only [contextIdOf_toNat]
  rfl

/-- What an agent has sent becomes letters to all agents that it sees, payload by payload. -/
def letters (h : Hub) (agent : Agent) (sent : List Bytes) : List Letter :=
  sent.flatMap fun payload => (h.neighborsOf agent).map fun receiver =>
    (receiver.contextId, ⟨agent.contextId, payload⟩)

/-- The tick after everything that an agent has sent has been routed. -/
def routed (h : Hub) (agent : Agent) (s : TickState σ) : TickState σ :=
  { s with bridge := s.bridge.adjust agent.vm Store.clearOutbound }.send
    (h.letters agent (s.bridge.outbound agent.vm))

/-- Routing what a loaded agent has sent succeeds. -/
theorem route_eq (hloaded : agent.vm.index < s.bridge.vmCount) :
    h.route agent s = some (.ok (), h.routed agent s) := by
  have htake : Ticking.take (fun b => b.drainOutbound agent.vm) s =
      some (.ok (s.bridge.outbound agent.vm),
        { s with bridge := s.bridge.adjust agent.vm Store.clearOutbound }) := by
    unfold Ticking.take
    dsimp only
    rw [Bridge.drainOutbound_eq hloaded]
  have hletter (payload : Bytes) (receiver : Agent) (t : TickState σ) :
      (do
        modify fun s : TickState σ =>
          { s with pending := s.pending.add receiver.contextId ⟨agent.contextId, payload⟩ }
        Ticking.count fun r => { r with routed := r.routed + 1 } : Ticking σ PUnit) t =
        some (.ok ⟨⟩, t.send [(receiver.contextId, ⟨agent.contextId, payload⟩)]) := rfl
  have hpayload (payload : Bytes) := Ticking.forIn_send (hletter payload) (h.neighborsOf agent)
  have hall := Ticking.forIn_send hpayload (s.bridge.outbound agent.vm)
    { s with bridge := s.bridge.adjust agent.vm Store.clearOutbound }
  simp only [bind_assoc, ← List.map_eq_flatMap] at hall
  unfold route
  rw [Work.bind_ok htake, Work.bind_ok hall]
  rfl

end Hub

end Swarm
