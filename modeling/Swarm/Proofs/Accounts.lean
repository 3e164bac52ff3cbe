import Swarm.Proofs.Deliveries

/-!
# Messages are neither lost nor duplicated

For a machine an account keeps which messages have been fed to it, what has
happened in it, and which payloads have been collected from it. Between any two
operations the messages fed are those that have been taken, in their order,
followed by the inbound queue, and the payloads of all calls of `send` that have
succeeded are those collected followed by the outbound queue. Every message that
was taken while a function listened has led to one call of that function, and any
other one to none.
-/

namespace Swarm

variable {σ : Type}

/-- What is known about the messages of a machine. -/
structure Account (σ : Type) where
  /-- The messages fed to the machine, the oldest first. -/
  fed : List Message := []
  /-- What has happened in the machine. -/
  moments : List (Moment σ) := []
  /-- The payloads collected from the machine, the oldest first. -/
  collected : List Bytes := []

namespace Account

/-- The account of the machine with the handle after an operation; it is empty as long as none is
loaded. -/
def after (fuel : Nat) (b : Bridge σ) (vm : Handle) (p : Account σ) (op : Operation σ) :
    Account σ :=
  match b.find vm with
  | .error _ => {}
  | .ok _ =>
    match op with
    | .destroyAll => {}
    | .feedMessage other sender payload =>
      if other = vm then { p with fed := p.fed ++ [⟨contextIdOf sender, payload⟩] } else p
    | .nextOutbound other =>
      if other = vm then
        match b.nextOutbound vm with
        | .ok (some payload, _) => { p with collected := p.collected ++ [payload] }
        | _ => p
      else p
    | op => { p with moments := p.moments ++ op.moments fuel b vm }

/-- The account agrees with the machine: what was fed has been taken or waits, and what was sent has
been collected or waits. Only in a machine that has faulted can a delivery have failed. -/
structure Balances (p : Account σ) (m : Machine Native) (deliveries : List Delivery) : Prop where
  conveys : Conveys p.moments deliveries
  inbound : p.fed = deliveries.map Delivery.message ++ m.store.mailbox.inbound
  outbound : p.moments.filterMap Moment.sent? = p.collected ++ m.store.mailbox.outbound
  succeed : m.isReady = true → ∀ d ∈ deliveries, ¬d.Failed

end Account

/-- The account of the machine with the handle after a sequence of operations. -/
inductive Bridge.Accounted (vm : Handle) : Bridge σ → Account σ → Prop where
  | new (maxVms hookCapacity : Nat) (limits : Limits) (host : σ) :
      Accounted vm (.new maxVms hookCapacity limits host) {}
  | after {b b' : Bridge σ} {p : Account σ} (h : Accounted vm b p) {fuel : Nat} {op : Operation σ}
      (hop : op.after fuel b = some b') : Accounted vm b' (p.after fuel b vm op)

namespace Bridge

variable {b b' : Bridge σ} {vm : Handle} {i i' : Instance} {fuel : Nat} {op : Operation σ}

/-- A bridge with an account is reachable. -/
theorem Accounted.reachable {p : Account σ} (h : b.Accounted vm p) : b.Reachable := by
  induction h with
  | new maxVms hookCapacity limits host => exact .new maxVms hookCapacity limits host
  | after _ hop ih => exact ih.after hop

/-- The machines of a reachable bridge are proper. -/
theorem Reachable.proper (h : b.Reachable) (hi : i ∈ b.instances) : i.machine.Proper := by
  refine ⟨h.sound hi, ?_⟩
  induction h generalizing i with
  | new maxVms hookCapacity limits host => cases Array.not_mem_empty i hi
  | after _ hop ih =>
    exact tidy_after (fun _ _ => trivial) (fun _ hj => ih hj)
      (fun _ _ _ _ _ _ _ _ => trivial) hop i hi

end Bridge

/-- Defining functions leaves the queues alone. -/
theorem Store.mailbox_foldl_install (builtins : List Builtin) (s : Store Native) :
    (builtins.foldl (Builtin.install .builtin) s).mailbox = s.mailbox := by
  induction builtins generalizing s with
  | nil => rfl
  | cons b rest ih => exact ih _

/-- A machine begins with empty queues. -/
theorem Machine.IsLoaded.mailbox_eq {m : Machine Native} (h : m.IsLoaded) :
    m.store.mailbox = {} := by
  have hprint (s : Store Native) : s.installPrint.mailbox = s.mailbox := rfl
  have hreset (s : Store Native) : s.resetNeighbors.mailbox = s.mailbox := rfl
  have hset (s : Store Native) (name : Bytes) (v : Value) :
      (s.setGlobal name v).mailbox = s.mailbox := rfl
  obtain ⟨image, program, limits, contextId, _, rfl⟩ := h
  unfold Machine.loaded
  rw [Machine.new_eq, Machine.mapStore]
  dsimp only
  rw [hprint, hreset, Store.mailbox_foldl_install, hset]

/-- What a step delivers: all messages that wait if it ends in readiness, and otherwise those up to
the one in whose delivery it fails. A machine that has faulted delivers nothing. -/
theorem Instance.exists_deliveries {i i' : Instance} {hooks : HookTable σ} {fuel : Nat}
    {w w' : World σ} {outcome : StepOutcome} (hproper : i.machine.Proper)
    (h : i.step hooks fuel w = some (outcome, i', w')) :
    ∃ deliveries, Conveys (i.stepMoments hooks fuel w) deliveries ∧
      i.machine.store.mailbox.inbound =
        deliveries.map Delivery.message ++ i'.machine.store.mailbox.inbound ∧
      i'.machine.store.mailbox.outbound = i.machine.store.mailbox.outbound ++
        (i.stepMoments hooks fuel w).filterMap Moment.sent? ∧
      (outcome = .ready → i.machine.isReady = true ∧ i'.machine.store.mailbox.inbound = [] ∧
        ∀ d ∈ deliveries, ¬d.Failed) ∧
      (i.machine.isReady = false → deliveries = []) := by
  obtain ⟨m, hpath, hmachine⟩ := path_of_step h
  have hmailbox : i'.machine.store.mailbox = m.store.mailbox := by
    rw [hmachine]
    split <;> rfl
  have hexchanges := (hpath.proper hproper).2
  have hinbound := hexchanges.inbound
  have houtbound := hexchanges.outbound
  rw [← hmailbox] at hinbound houtbound
  cases hready : i.machine.isReady with
  | false =>
    have hnothing : i.stepMoments hooks fuel w = [] := by
      unfold stepMoments
      rw [hready]
      rfl
    rw [step_of_faulted hready] at h
    cases h
    rw [hnothing] at hinbound houtbound ⊢
    exact ⟨[], .of_works (List.forall_mem_nil _), hinbound, houtbound, nofun, fun _ => rfl⟩
  | true =>
    have hturn : i.stepMoments hooks fuel w = (Told.turn hooks fuel (i, w)).2 := if_pos hready
    unfold step at h
    rw [if_pos hready] at h
    obtain ⟨⟨result, i₁, w₁⟩, hresult, heq⟩ := Option.map_eq_some_iff.mp h
    rw [← Told.tells_turn] at hresult
    obtain ⟨deliveries, hconveys, hok⟩ :=
      Told.delivers_turn hooks fuel (i, w) hproper trivial _ _ hresult
    rw [hturn] at hinbound houtbound ⊢
    rw [hconveys.taken_eq] at hinbound
    refine ⟨deliveries, hconveys, hinbound, houtbound, fun houtcome => ?_, nofun⟩
    cases result with
    | error e =>
      cases heq
      cases houtcome
    | ok _ =>
      cases heq
      obtain ⟨⟨_, hempty⟩, hnone⟩ := hok () rfl
      exact ⟨rfl, hempty, hnone⟩

namespace Account

variable {p : Account σ} {b b' : Bridge σ} {vm : Handle} {i i' : Instance} {fuel : Nat}
  {op : Operation σ} {m m' : Machine Native} {deliveries : List Delivery}

/-- Nothing has been fed to a machine that has just been loaded, and it has sent nothing. -/
theorem balances_loaded (h : m.IsLoaded) : ({} : Account σ).Balances m [] := by
  have hmailbox : m.store.mailbox = {} := h.mailbox_eq
  exact ⟨.of_works (List.forall_mem_nil _), by rw [hmailbox]; rfl, by rw [hmailbox]; rfl,
    fun _ => List.forall_mem_nil _⟩

/-- The account keeps what the host feeds and collects. -/
theorem Balances.minor (h : p.Balances i.machine deliveries) (hfind : b.find vm = .ok i)
    (hminor : op.IsMinor) (hfault : i'.machine.fault = i.machine.fault)
    (hmail : i'.machine.store.mailbox = op.mail vm i.machine.store.mailbox) :
    (p.after fuel b vm op).Balances i'.machine deliveries := by
  have hsucceed (hready : i'.machine.isReady = true) : ∀ d ∈ deliveries, ¬d.Failed :=
    h.succeed (Execution.isReady_of_fault_eq hfault.symm hready)
  have hstay (hmail : i'.machine.store.mailbox = i.machine.store.mailbox) :
      p.Balances i'.machine deliveries :=
    ⟨h.conveys, hmail ▸ h.inbound, hmail ▸ h.outbound, hsucceed⟩
  unfold after
  rw [hfind]
  cases op with
  | load | step | destroyAll => exact hminor.elim
  | feedMessage other sender payload =>
    dsimp only [Operation.mail] at *
    split <;> rename_i hvm
    · rw [if_pos hvm] at hmail
      refine ⟨h.conveys, ?_, hmail ▸ h.outbound, hsucceed⟩
      rw [hmail, Mailbox.receive, h.inbound, List.append_assoc]
    · rw [if_neg hvm] at hmail
      exact hstay hmail
  | nextOutbound other =>
    dsimp only [Operation.mail] at *
    split <;> rename_i hvm
    · rw [if_pos hvm] at hmail
      rw [Bridge.nextOutbound_of_find hfind]
      cases hqueue : i.machine.store.mailbox.outbound with
      | nil =>
        have hnone : i.machine.store.mailbox.takeOutbound.2 = i.machine.store.mailbox := by
          rw [Mailbox.takeOutbound, hqueue, List.tail_nil, ← hqueue]
        exact hstay (hmail.trans hnone)
      | cons payload rest =>
        have houtbound := h.outbound
        rw [hqueue] at houtbound
        refine ⟨h.conveys, ?_, ?_, hsucceed⟩
        · rw [hmail]
          exact h.inbound
        · rw [hmail, Mailbox.takeOutbound, hqueue]
          exact houtbound.trans (List.append_cons ..)
    · rw [if_neg hvm] at hmail
      exact hstay hmail
  | _ =>
    have hmoments : p.moments ++ [] = p.moments := List.append_nil _
    dsimp only [Operation.moments]
    rw [hmoments]
    exact hstay hmail

/-- The account keeps what a step delivers and sends. -/
theorem Balances.step (h : p.Balances i.machine deliveries) (hproper : i.machine.Proper)
    (hi : i.Consistent) {hooks : HookTable σ} {w w' : World σ} {outcome : StepOutcome}
    (hstep : i.step hooks fuel w = some (outcome, i', w')) :
    ∃ deliveries', Balances { p with moments := p.moments ++ i.stepMoments hooks fuel w }
      i'.machine deliveries' := by
  obtain ⟨more, hconveys, hinbound, houtbound, hready, hnone⟩ :=
    Instance.exists_deliveries hproper hstep
  obtain ⟨_, _, hends⟩ := hi.step hooks fuel w
  obtain ⟨_, _, _, houtcome⟩ := hends _ _ _ hstep
  have hall : Conveys (p.moments ++ i.stepMoments hooks fuel w) (deliveries ++ more) := by
    cases hmachine : i.machine.isReady with
    | true => exact h.conveys.append (h.succeed hmachine) hconveys
    | false =>
      -- The last delivery may have failed, but nothing is delivered after it.
      have hnothing : i.stepMoments hooks fuel w = [] := by
        unfold Instance.stepMoments
        rw [hmachine]
        rfl
      rw [hnone hmachine, hnothing, List.append_nil, List.append_nil]
      exact h.conveys
  refine ⟨deliveries ++ more, hall, ?_, ?_, fun hmachine d hd => ?_⟩
  · rw [h.inbound, hinbound, List.map_append, List.append_assoc]
  · rw [List.filterMap_append, h.outbound, houtbound, List.append_assoc]
  · obtain ⟨hbefore, _, hmore⟩ :=
      hready (houtcome.trans ((i'.outcome_eq_ready_iff).mpr hmachine))
    exact (List.mem_append.mp hd).elim (h.succeed hbefore d) (hmore d)

end Account

namespace Bridge

variable {b b' : Bridge σ} {vm : Handle} {i : Instance} {p : Account σ}

/-- What holds of a machine that has just been loaded, and is kept by steps and by operations that
neither load nor step nor unload, holds of every machine and its account. -/
theorem Accounted.holds {P : Account σ → Instance → Prop}
    (hload : ∀ i, i.machine.IsLoaded → P {} i)
    (hminor : ∀ b b' p i i' fuel (op : Operation σ), b.find vm = .ok i → b'.find vm = .ok i' →
      op.after fuel b = some b' → op.IsMinor → P p i → P (p.after fuel b vm op) i')
    (hstep : ∀ (b : Bridge σ) p i i' fuel outcome w', b.Reachable → b.find vm = .ok i →
      i.step b.hooks fuel b.world = some (outcome, i', w') → P p i →
      P { p with moments := p.moments ++ i.stepMoments b.hooks fuel b.world } i')
    (h : b.Accounted vm p) (hfind : b.find vm = .ok i) : P p i := by
  induction h generalizing i with
  | new maxVms hookCapacity limits host => cases getElem?_of_find hfind
  | @after b b' p h fuel op hop ih =>
    cases hbefore : b.find vm with
    | error e =>
      have hempty : p.after fuel b vm op = {} := by
        unfold Account.after
        rw [hbefore]
      rw [hempty]
      rcases exists_path_of_after hop hfind with ⟨_, _, hfound, _⟩ | ⟨_, hloaded⟩
      · cases hbefore.symm.trans hfound
      · exact hload i hloaded
    | ok j =>
      have hstay (hmoments : p.after fuel b vm op =
            { p with moments := p.moments ++ op.moments fuel b vm })
          (hnothing : op.moments fuel b vm = []) (hsame : i = j) : P (p.after fuel b vm op) i := by
        rw [hmoments, hnothing, List.append_nil, hsame]
        exact ih hbefore
      cases op with
      | load files bytecodePath debugPath contextId =>
        have hmoments : p.after fuel b vm (.load files bytecodePath debugPath contextId) =
            { p with moments := p.moments ++ [] } := by
          unfold Account.after
          rw [hbefore]
          rfl
        refine hstay hmoments rfl ?_
        cases hop
        cases hload : b.load files bytecodePath debugPath contextId with
        | error e =>
          rw [hload] at hfind
          exact Except.ok.inj (hfind.symm.trans hbefore)
        | ok loaded =>
          rw [hload] at hfind
          rcases find_of_load hload hfind with hfound | ⟨⟨_, hfound⟩, _⟩
          · exact Except.ok.inj (hfound.symm.trans hbefore)
          · cases hbefore.symm.trans hfound
      | step other =>
        have hmoments : p.after fuel b vm (.step other) =
            { p with moments := p.moments ++ (Operation.step other).moments fuel b vm } := by
          unfold Account.after
          rw [hbefore]
        rcases find_of_step hop hfind with ⟨hfound, hother⟩ | ⟨rfl, k, _, _, hfound, _, hdone⟩
        · exact hstay hmoments (moments_step_ne hother) (Except.ok.inj (hfound.symm.trans hbefore))
        · cases hbefore.symm.trans hfound
          rw [hmoments, moments_step hbefore]
          exact hstep b p j i fuel _ _ h.reachable hbefore hdone (ih hbefore)
      | destroyAll =>
        obtain ⟨result, hresult, rfl⟩ := Option.map_eq_some_iff.mp hop
        obtain ⟨inner, _, rfl⟩ := Option.map_eq_some_iff.mp hresult
        cases getElem?_of_find hfind
      | _ => exact hminor b b' p j i fuel _ hbefore hfind hop trivial (ih hbefore)

/-- Between the operations of the host the account of every loaded machine balances. -/
theorem Accounted.balances (h : b.Accounted vm p) (hfind : b.find vm = .ok i) :
    ∃ deliveries, p.Balances i.machine deliveries := by
  refine h.holds (P := fun p i => ∃ deliveries, p.Balances i.machine deliveries)
    (fun i hloaded => ⟨[], Account.balances_loaded hloaded⟩) ?_ ?_ hfind
  · rintro b b' p i i' fuel op hbefore hafter hop hminor ⟨deliveries, hbalances⟩
    obtain ⟨j, hfound, hfault, hmail, _⟩ := exists_of_minor hop hminor hafter
    cases hbefore.symm.trans hfound
    exact ⟨deliveries, hbalances.minor hbefore hminor hfault hmail⟩
  · rintro b p i i' fuel outcome w' hreachable hbefore hdone ⟨deliveries, hbalances⟩
    have hmem := mem_of_find hbefore
    exact hbalances.step (hreachable.proper hmem) (hreachable.registered.consistent i hmem) hdone

/-- What becomes of the messages of the machine with the handle. -/
structure KeepsMessages (b : Bridge σ) (vm : Handle) (p : Account σ) : Prop where
  traces : b.Traces vm
  balances : ∀ i, b.find vm = .ok i → ∃ deliveries, p.Balances i.machine deliveries
  steps : ∀ fuel outcome b', b.step fuel vm = some (.ok (outcome, b')) →
    ∃ i i' deliveries, b.find vm = .ok i ∧ b'.find vm = .ok i' ∧
      Conveys ((Operation.step vm).moments fuel b vm) deliveries ∧
      i.machine.store.mailbox.inbound =
        deliveries.map Delivery.message ++ i'.machine.store.mailbox.inbound ∧
      (outcome = .ready → i'.machine.store.mailbox.inbound = []) ∧
      ∀ k d, deliveries[k]? = some d → d.Failed → outcome ≠ .ready ∧ deliveries.length = k + 1 ∧
        i'.machine.store.mailbox.inbound = i.machine.store.mailbox.inbound.drop (k + 1)

/-- Whatever the operations of the host are, every message that is fed to a machine is taken at most
once and in its order, what is taken is heard by the listener of that moment if there is one, and
what the script sends is collected in its order. -/
theorem Accounted.keepsMessages (h : b.Accounted vm p) : b.KeepsMessages vm p := by
  refine ⟨b.traces vm, fun i => h.balances, fun fuel outcome b' hanswer => ?_⟩
  obtain ⟨i, i', world, hfind, hstep, hb'⟩ := exists_of_step hanswer
  have hproper := h.reachable.proper (mem_of_find hfind)
  obtain ⟨deliveries, hconveys, hinbound, _, hready, _⟩ := Instance.exists_deliveries hproper hstep
  rw [← moments_step hfind] at hconveys
  refine ⟨i, i', deliveries, hfind, find_replace hfind (by rw [hb']), hconveys, hinbound,
    fun houtcome => (hready houtcome).2.1, fun k d hk hfailed => ⟨fun houtcome => ?_, ?_⟩⟩
  · exact (hready houtcome).2.2 d (List.mem_of_getElem? hk) hfailed
  · have hlast := hconveys.last k d hk hfailed
    have hlength : (deliveries.map Delivery.message).length = k + 1 := by
      rw [List.length_map, hlast]
    rw [hinbound, ← hlength, List.drop_left]
    exact ⟨hlast.symm.trans hlength.symm, rfl⟩

end Bridge

/-- A script that sends back what it hears, and a debug-symbol table without entries. -/
def Files.echo : Files := fun path =>
  if path = "script" then .ok [0x48, 0x49, 0x56, 0x45, 1, 2, 0, 6, 0, 0x6c, 0x69, 0x73, 0x74, 0x65,
    0x6e, 4, 0, 0x73, 0x65, 0x6e, 0x64, 20, 0, 0, 0, 12, 0, 0, 6, 11, 0, 0, 0, 16, 1, 0, 12, 1, 0,
    14, 2, 0, 16, 1, 18]
  else .ok [0x48, 0x44, 0x42, 0x47, 0, 0]

namespace Bridge

/-- A bridge into which the script has been loaded. -/
def echoing : Bridge Unit :=
  let b : Bridge Unit := .new 1 0 {} ()
  b.attempt ((b.load Files.echo "script" "symbols" 7).map Prod.fst)

/-- The same after a message has been fed to the script and the script has taken a step. -/
def echoed : Bridge Unit :=
  ((Operation.step ⟨0⟩).after 19
    (echoing.attempt (echoing.feedMessage ⟨0⟩ 3 [0x68, 0x69]))).get (by decide +kernel)

/-- In its first step the script begins to listen, hears the message that waits, and sends it
back. -/
theorem keepsMessages_echoed : ∃ p : Account Unit, echoed.Accounted ⟨0⟩ p ∧
    p.fed = [⟨3, [0x68, 0x69]⟩] ∧
      (echoed.find ⟨0⟩).map (·.machine.store.mailbox) = .ok ⟨[], [[0x68, 0x69]]⟩ ∧
      echoed.KeepsMessages ⟨0⟩ p := by
  let load : Operation Unit := .load Files.echo "script" "symbols" 7
  let feed : Operation Unit := .feedMessage ⟨0⟩ 3 [0x68, 0x69]
  let step : Operation Unit := .step ⟨0⟩
  have hnew : (Bridge.new 1 0 {} () : Bridge Unit).Accounted ⟨0⟩ {} := .new 1 0 {} ()
  have hload : load.after 0 (.new 1 0 {} ()) = some echoing := rfl
  have hfeed : feed.after 0 echoing =
      some (echoing.attempt (echoing.feedMessage ⟨0⟩ 3 [0x68, 0x69])) := rfl
  have hstep : step.after 19 (echoing.attempt (echoing.feedMessage ⟨0⟩ 3 [0x68, 0x69])) =
      some echoed := (Option.some_get _).symm
  have haccounted := ((hnew.after hload).after hfeed).after hstep
  exact ⟨_, haccounted, by decide +kernel, by decide +kernel, Accounted.keepsMessages haccounted⟩

end Bridge

end Swarm
