import Swarm.Proofs.Dispatch
import Swarm.Proofs.Requests

/-!
# No interference between machines

Requests that name other machines can be left out: a machine, and everything that
the host is told about it, are the same without them, as long as functions of the
host answer by the call alone. Scripts that are loaded and hooks that are
registered stay, as they take places and slots that all machines share.

The run with all requests and the run without the others are followed side by
side. A request for another machine is a step of the first run only.
-/

namespace Swarm

/-- Those of the answers that were given to requests that concern a machine. -/
def Request.concerning (vm : Handle) (requests : List Request) (answers : List Answer) :
    List Answer :=
  (requests.zip answers).filterMap fun (request, answer) =>
    if request.concerns vm then some answer else none

section Concerning

variable {vm : Handle} {request : Request}

/-- The answer to a request that concerns the machine is among those to it. -/
theorem Request.concerning_cons_of_concerns (h : request.concerns vm = true) (answer : Answer)
    (requests : List Request) (answers : List Answer) :
    concerning vm (request :: requests) (answer :: answers) =
      answer :: concerning vm requests answers :=
  List.filterMap_cons_some (if_pos h)

/-- The answer to a request that does not concern the machine is left out. -/
theorem Request.concerning_cons_of_not_concerns (h : request.concerns vm = false)
    (answer : Answer) (requests : List Request) (answers : List Answer) :
    concerning vm (request :: requests) (answer :: answers) = concerning vm requests answers :=
  List.filterMap_cons_none (if_neg (Bool.eq_false_iff.mp h))

end Concerning

namespace Bridge

variable {σ : Type} {b b' b₁ b₂ : Bridge σ} {vm : Handle} {request : Request}
  {requests : List Request} {answer : Answer} {answers : List Answer}

/-- The first request is performed first. -/
theorem performAll_cons (h : b.perform request = some (answer, b₁))
    (hrest : b₁.performAll requests = some (answers, b₂)) :
    b.performAll (request :: requests) = some (answer :: answers, b₂) := by
  simp only [performAll, h, hrest, Option.bind_eq_bind, Option.bind_some, Option.pure_def]

/-- Who performs several requests performs the first one and then the others. -/
theorem exists_of_performAll_cons (h : b.performAll (request :: requests) = some (answers, b₂)) :
    ∃ answer b₁ rest, b.perform request = some (answer, b₁) ∧
      b₁.performAll requests = some (rest, b₂) ∧ answers = answer :: rest := by
  unfold performAll at h
  obtain ⟨⟨answer, b₁⟩, hfirst, h⟩ := Option.bind_eq_some_iff.mp h
  obtain ⟨⟨rest, b₂'⟩, hrest, h⟩ := Option.bind_eq_some_iff.mp h
  cases h
  exact ⟨answer, b₁, rest, hfirst, hrest, rfl⟩

/-- Every request is answered. -/
theorem length_of_performAll (h : b.performAll requests = some (answers, b₁)) :
    answers.length = requests.length := by
  induction requests generalizing b answers with
  | nil =>
    cases h
    rfl
  | cons request requests ih =>
    obtain ⟨answer, b', rest, _, hrest, rfl⟩ := exists_of_performAll_cons h
    exact congrArg (· + 1) (ih hrest)

/-- Leaving out requests for other machines, on bridges that cannot be told apart through the
machine. -/
theorem Resembles.exists_performAll (h : b.Resembles vm b') (hb : b.Stateless)
    (hrun : b.performAll requests = some (answers, b₁)) :
    ∃ b₁', b'.performAll (requests.filter (·.concerns vm)) =
        some (Request.concerning vm requests answers, b₁') ∧ b₁.Resembles vm b₁' := by
  induction requests generalizing b b' answers with
  | nil =>
    cases hrun
    exact ⟨b', rfl, h⟩
  | cons request requests ih =>
    obtain ⟨answer, b₀, rest, hfirst, hrest, rfl⟩ := exists_of_performAll_cons hrun
    have hb₀ : b₀.Stateless := hb.perform hfirst
    cases hconcerns : request.concerns vm with
    | false =>
      have h₀ : b₀.Resembles vm b' := (resembles_of_not_concerns hconcerns hfirst).symm.trans h
      rw [List.filter_cons_of_neg (Bool.eq_false_iff.mp hconcerns),
        Request.concerning_cons_of_not_concerns hconcerns]
      exact ih h₀ hb₀ hrest
    | true =>
      have hmet : Option.Rel (Agrees vm) (b.perform request) (b'.perform request) :=
        h.perform hb hconcerns
      rw [hfirst] at hmet
      generalize hfirst' : b'.perform request = met at hmet
      obtain ⟨⟨answer', b₀'⟩, rfl, hagrees⟩ : ∃ x, met = some x ∧ Agrees vm (answer, b₀) x := by
        cases hmet with
        | some hagrees => exact ⟨_, rfl, hagrees⟩
      obtain rfl : answer' = answer := hagrees.answer
      obtain ⟨b₁', hrest', hend⟩ := ih hagrees.bridge hb₀ hrest
      rw [List.filter_cons_of_pos hconcerns, Request.concerning_cons_of_concerns hconcerns]
      exact ⟨b₁', performAll_cons hfirst' hrest', hend⟩

/-- How requests were met tells nothing about what the host wanted of other machines. -/
structure Unaware (b : Bridge σ) (vm : Handle) (requests : List Request) (answers : List Answer)
    (b₁ : Bridge σ) : Prop where
  /-- Every request was answered. -/
  answered : answers.length = requests.length
  /-- Without the requests that do not concern the machine, all others are answered as they were,
  and the machine ends as it did. -/
  alone : ∃ b₂, b.performAll (requests.filter (·.concerns vm)) =
      some (Request.concerning vm requests answers, b₂) ∧ b₂.instance? vm = b₁.instance? vm
  /-- So it does with any other requests in their place. -/
  unobserved : ∀ others answers' b₂,
    others.filter (·.concerns vm) = requests.filter (·.concerns vm) →
    b.performAll others = some (answers', b₂) →
    Request.concerning vm others answers' = Request.concerning vm requests answers ∧
      b₂.instance? vm = b₁.instance? vm

/-- Requests for other machines neither change a machine nor what the host is told about it. -/
theorem Stateless.unaware (hb : b.Stateless) (vm : Handle)
    (hrun : b.performAll requests = some (answers, b₁)) : b.Unaware vm requests answers b₁ := by
  obtain ⟨b₂, halone, hend⟩ := (resembles_refl vm b).exists_performAll hb hrun
  refine ⟨length_of_performAll hrun, ⟨b₂, halone, hend.same⟩, ?_⟩
  intro others answers' b₁' hsame hrun'
  obtain ⟨b₂', halone', hend'⟩ := (resembles_refl vm b).exists_performAll hb hrun'
  rw [hsame, halone] at halone'
  obtain ⟨hanswers, rfl⟩ := Prod.mk.inj (Option.some.inj halone')
  exact ⟨hanswers.symm, hend'.same.symm.trans hend.same⟩

end Bridge

/-- Both functions of the module answer by the call alone, though one of them takes notes. -/
theorem HostModule.stateless_of_sample {name : String}
    {function : HostFunction (List (Option Handle × Nat))}
    (h : HostModule.sample.get? name = some (.function function)) : function.Stateless := by
  unfold HostModule.sample HostModule.get? HostModule.add at h
  simp only [Std.TreeMap.getElem?_insert] at h
  split at h
  · cases h
    exact fun _ _ _ => rfl
  · split at h
    · cases h
      exact fun _ _ _ => rfl
    · cases h

namespace Bridge

/-- A bridge without scripts that has two functions to bind to two slots. -/
def furnished : Bridge (List (Option Handle × Nat)) :=
  let b : Bridge (List (Option Handle × Nat)) := (Bridge.new 2 2 {} []).installModule .sample
  b.attempt (b.importModule "swarm")

/-- The second script is refused an answer and stops, and then gets a message. -/
def failingNeighbor : List Request :=
  [.load Files.query "script" "symbols" 7, .load Files.query "script" "symbols" 8,
    .registerHook ⟨0⟩ 0 "query", .registerHook ⟨1⟩ 1 "query", .registerHook ⟨1⟩ 1 "refuse",
    .step ⟨1⟩ 9, .feedMessage ⟨1⟩ 7 [1, 2, 3], .step ⟨0⟩ 9, .nextOutbound ⟨0⟩, .ask ⟨1⟩ .explain]

/-- Both functions answer by the call alone. -/
theorem stateless_furnished : furnished.Stateless where
  hooks slot hook h := by
    match slot with
    | 0 | 1 | _ + 2 => cases h
  library name function h := by
    have himported : furnished.library.importedModule? = some .sample := rfl
    unfold HostLibrary.resolve at h
    rw [himported] at h
    dsimp only at h
    split at h
    · case h_1 f hmember =>
      cases h
      exact HostModule.stateless_of_sample hmember
    · cases h
    · cases h

/-- The first script knows nothing of the fault of the second one. -/
theorem unaware_of_failing_neighbor : ∃ answers b₁, furnished.Stateless ∧
    furnished.performAll failingNeighbor = some (answers, b₁) ∧
      ([⟨0⟩, ⟨1⟩].map fun vm => (b₁.find vm).map fun i => i.machine.fault.map (·.error)) =
        [.ok none, .ok (some (.raised "hook 'refuse': refused"))] ∧
      furnished.Unaware ⟨0⟩ failingNeighbor answers b₁ := by
  obtain ⟨⟨answers, b₁⟩, hrun⟩ : ∃ x, furnished.performAll failingNeighbor = some x :=
    Option.isSome_iff_exists.mp (by decide +kernel)
  have hfaults : ((furnished.performAll failingNeighbor).map fun (_, b₁) =>
      [⟨0⟩, ⟨1⟩].map fun vm => (b₁.find vm).map fun i => i.machine.fault.map (·.error)) =
        some [.ok none, .ok (some (.raised "hook 'refuse': refused"))] := by decide +kernel
  rw [hrun] at hfaults
  exact ⟨answers, b₁, stateless_furnished, hrun, Option.some.inj hfaults,
    stateless_furnished.unaware ⟨0⟩ hrun⟩

end Bridge

end Swarm
