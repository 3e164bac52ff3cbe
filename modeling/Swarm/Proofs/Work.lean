import Swarm.Hub.Tick

/-!
# Work that keeps what was done

Turns of a script and ticks of a hub are work of the same shape: it may have no
answer for want of fuel, it ends at the first error, and the state keeps what was
done before that. Statements about such work are put together like statements
about actions; work without an answer satisfies all of them. A change of the state
that the work does not notice can be made before it or after it.
-/

namespace Swarm

/-- Work on a state that may have no answer and may fail. -/
abbrev Work (τ ε α : Type) := ExceptT ε (StateT τ Option) α

namespace Work

variable {τ ε α β : Type} {work : Work τ ε α} {next : α → Work τ ε β} {t : τ}
  {ends ends' : α → τ → Prop} {endsNext : β → τ → Prop} {fails fails' : ε → τ → Prop}

/-- An answer is a success that ends as `ends` says or a failure that ends as `fails` says. -/
def Answers (ends : α → τ → Prop) (fails : ε → τ → Prop) : Except ε α × τ → Prop
  | (.ok a, t) => ends a t
  | (.error e, t) => fails e t

/-- Begun in a state, the work ends as `ends` says if it succeeds, and as `fails` says if it
fails. -/
def Ends (work : Work τ ε α) (t : τ) (ends : α → τ → Prop) (fails : ε → τ → Prop) : Prop :=
  ∀ answer, work t = some answer → Answers ends fails answer

/-- What is said of a success holds of it. -/
theorem Ends.ok (h : Ends work t ends fails) {a : α} {t' : τ}
    (hanswer : work t = some (.ok a, t')) : ends a t' :=
  h _ hanswer

/-- What is said of an error holds of it. -/
theorem Ends.error (h : Ends work t ends fails) {e : ε} {t' : τ}
    (hanswer : work t = some (.error e, t')) : fails e t' :=
  h _ hanswer

/-- What is said of the ends of work may be weakened. -/
theorem Ends.imp (h : Ends work t ends fails) (hends : ∀ a t', ends a t' → ends' a t')
    (hfails : ∀ e t', fails e t' → fails' e t') : Ends work t ends' fails' := by
  intro answer hanswer
  match answer with
  | (.ok a, t') => exact hends a t' (h.ok hanswer)
  | (.error e, t') => exact hfails e t' (h.error hanswer)

/-- What is known of an answer in two ways is known together. -/
theorem Ends.and (h : Ends work t ends fails) (h' : Ends work t ends' fails') :
    Ends work t (fun a t' => ends a t' ∧ ends' a t') fun e t' => fails e t' ∧ fails' e t' := by
  intro answer hanswer
  match answer with
  | (.ok a, t') => exact ⟨h.ok hanswer, h'.ok hanswer⟩
  | (.error e, t') => exact ⟨h.error hanswer, h'.error hanswer⟩

/-- Work that is known to succeed ends so. -/
theorem ends_of_eq {a : α} {t' : τ} (h : work t = some (.ok a, t')) (hends : ends a t') :
    Ends work t ends fails := by
  intro answer hanswer
  rw [h] at hanswer
  cases hanswer
  exact hends

/-- Doing nothing ends as it began. -/
theorem ends_pure {a : α} (h : ends a t) : Ends (pure a) t ends fails := by
  intro answer hanswer
  cases hanswer
  exact h

/-- A change ends with what it makes. -/
theorem ends_modify {f : τ → τ} {ends : PUnit → τ → Prop} (h : ends ⟨⟩ (f t)) :
    Ends (modify f) t ends fails := by
  intro answer hanswer
  cases hanswer
  exact h

/-- Looking at the state changes nothing. -/
theorem ends_get_bind {next : τ → Work τ ε β} (h : Ends (next t) t endsNext fails) :
    Ends (get >>= next) t endsNext fails := h

/-- Work goes on after a change of the state. -/
theorem ends_modify_bind {f : τ → τ} {next : PUnit → Work τ ε β}
    (h : Ends (next ⟨⟩) (f t) endsNext fails) : Ends (modify f >>= next) t endsNext fails := h

/-- Work goes on after a success only. -/
theorem bind_eq (work : Work τ ε α) (next : α → Work τ ε β) (t : τ) :
    (work >>= next) t = (work t).bind fun
      | (.ok a, t') => next a t'
      | (.error e, t') => some (.error e, t') := by
  change (work t).bind _ = _
  cases work t with
  | none => rfl
  | some answer =>
    obtain ⟨result, t'⟩ := answer
    cases result <;> rfl

/-- After a success the next work begins. -/
theorem bind_ok {a : α} {t' : τ} (h : work t = some (.ok a, t')) :
    (work >>= next) t = next a t' := by
  rw [bind_eq, h]
  rfl

/-- Work without an answer stops at the first piece that has none. -/
theorem of_bind_none (h : (work >>= next) t = none) :
    work t = none ∨ ∃ a t', work t = some (.ok a, t') ∧ next a t' = none := by
  rw [bind_eq] at h
  cases hwork : work t with
  | none => exact .inl rfl
  | some answer =>
    rw [hwork] at h
    match answer with
    | (.ok a, t') => exact .inr ⟨a, t', rfl, h⟩
    | (.error e, t') => cases h

/-- One piece of work after another ends as the second one does, unless the first one fails. -/
theorem Ends.bind (h : Ends work t ends fails)
    (hnext : ∀ a t', ends a t' → Ends (next a) t' endsNext fails) :
    Ends (work >>= next) t endsNext fails := by
  intro answer hanswer
  rw [bind_eq] at hanswer
  cases hwork : work t with
  | none =>
    rw [hwork] at hanswer
    cases hanswer
  | some first =>
    rw [hwork] at hanswer
    match first with
    | (.ok a, t') => exact hnext a t' (h.ok hwork) answer hanswer
    | (.error e, t') =>
      cases hanswer
      exact h.error hwork

/-- After work that cannot fail, continuations that agree wherever it ends are the same. -/
theorem Ends.bind_congr {next' : α → Work τ ε β} (h : Ends work t ends fun _ _ => False)
    (hnext : ∀ a t', ends a t' → next a t' = next' a t') :
    (work >>= next) t = (work >>= next') t := by
  rw [bind_eq, bind_eq]
  cases hwork : work t with
  | none => rfl
  | some answer =>
    match answer with
    | (.ok a, t') => exact hnext a t' (h.ok hwork)
    | (.error e, t') => exact (h.error hwork).elim

/-- A loop over a list keeps an invariant that speaks of the part of the list that is left. -/
theorem ends_forIn {γ : Type} {xs : List γ} {body : γ → PUnit → Work τ ε (ForInStep PUnit)}
    (inv : List γ → τ → Prop) (h : inv xs t)
    (hbody : ∀ x rest t, inv (x :: rest) t →
      Ends (body x ⟨⟩) t (fun next t' => next = .yield ⟨⟩ ∧ inv rest t') fails) :
    Ends (forIn xs ⟨⟩ body) t (fun _ t' => inv [] t') fails := by
  induction xs generalizing t with
  | nil => exact ends_pure h
  | cons x rest ih =>
    rw [List.forIn_cons]
    refine (hbody x rest t h).bind ?_
    rintro _ t' ⟨rfl, hinv⟩
    exact ih hinv

/-- The work goes on as before after the change, and leads to the same change. -/
def Passes (g : τ → τ) (work : Work τ ε α) : Prop :=
  ∀ t, work (g t) = (work t).map fun (result, t) => (result, g t)

/-- Changing nothing passes any work. -/
theorem passes_id (work : Work τ ε α) : Passes (fun t => t) work := by
  intro t
  exact (congrFun Option.map_id (work t)).symm

/-- Every change passes work that does nothing. -/
theorem passes_pure (g : τ → τ) (a : α) : Passes g (pure a : Work τ ε α) := fun _ => rfl

/-- A change that passes work may pass more. -/
theorem Passes.bind {g : τ → τ} (h : Passes g work) (hnext : ∀ a, Passes g (next a)) :
    Passes g (work >>= next) := by
  intro t
  rw [bind_eq, bind_eq, h t]
  cases work t with
  | none => rfl
  | some answer =>
    match answer with
    | (.ok a, t') => exact hnext a t'
    | (.error e, t') => rfl

/-- A change can be made after work that does not notice it and cannot fail. -/
theorem Passes.bind_eq {g : τ → τ} (hg : Passes g work) (h : Ends work t ends fun _ _ => False) :
    (work >>= next) (g t) = (work >>= fun a => modify g >>= fun _ => next a) t := by
  rw [Work.bind_eq, Work.bind_eq, hg t]
  cases hwork : work t with
  | none => rfl
  | some answer =>
    match answer with
    | (.ok a, t') => rfl
    | (.error e, t') => exact (h.error hwork).elim

/-- Changes that pass work do so one after the other. -/
theorem Passes.comp {f g : τ → τ} (hf : Passes f work) (hg : Passes g work) :
    Passes (fun t => f (g t)) work := by
  intro t
  rw [hf, hg, Option.map_map]
  rfl

end Work

end Swarm
