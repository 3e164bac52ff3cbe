import Swarm.Proofs.Operations

/-!
# Where functions of the host are looked up

The history of a library says in which module functions are looked up: the one that
was installed last under the name that was imported last. An import counts only if a
module of that name was installed before it. Bridges keep what the history of their
libraries says, whatever else is done with them in between.
-/

namespace Swarm

variable {σ : Type}

/-- What the host asks of its library. -/
inductive LibraryCall (σ : Type) where
  | install (m : HostModule σ)
  /-- There may be no module of this name. -/
  | importModule (name : String)

/-- What an operation asks of the library. -/
def Operation.libraryCall? : Operation σ → Option (LibraryCall σ)
  | .installModule m => some (.install m)
  | .importModule name => some (.importModule name)
  | _ => none

/-- The function with a name among the members of a module. -/
def HostModule.resolve (m : HostModule σ) (name : String) : Except HookError (HostFunction σ) :=
  match m.get? name with
  | some (.function f) => .ok f
  | some (.attribute _) => .error (.notCallable m.name name)
  | none => .error (.unresolvedName m.name name)

namespace LibraryCall

/-- The module that was installed last under a name. Calls are listed from the latest on. -/
def lastInstalled (name : String) : List (LibraryCall σ) → Option (HostModule σ)
  | [] => none
  | .install m :: earlier => if m.name = name then some m else lastInstalled name earlier
  | .importModule _ :: earlier => lastInstalled name earlier

/-- The name that was imported last when there was a module of that name. -/
def lastImported : List (LibraryCall σ) → Option String
  | [] => none
  | .install _ :: earlier => lastImported earlier
  | .importModule name :: earlier =>
    if (lastInstalled name earlier).isSome then some name else lastImported earlier

/-- The module in which functions are looked up. -/
def current (calls : List (LibraryCall σ)) : Option (HostModule σ) :=
  (lastImported calls).bind fun name => lastInstalled name calls

/-- What looking up a function comes to. -/
def resolution (calls : List (LibraryCall σ)) (name : String) :
    Except HookError (HostFunction σ) :=
  match current calls with
  | none => .error .noModuleImported
  | some m => m.resolve name

variable {calls : List (LibraryCall σ)} {name : String}

/-- A module that has been installed has the name that it was installed under. -/
theorem name_of_lastInstalled {m : HostModule σ} (h : lastInstalled name calls = some m) :
    m.name = name := by
  induction calls with
  | nil => cases h
  | cons call earlier ih =>
    cases call with
    | install new =>
      by_cases hname : new.name = name
      · rw [lastInstalled, if_pos hname] at h
        cases h
        exact hname
      · rw [lastInstalled, if_neg hname] at h
        exact ih h
    | importModule _ => exact ih h

/-- A module is never taken away: there is one under the imported name. -/
theorem exists_lastInstalled (h : lastImported calls = some name) :
    ∃ m, lastInstalled name calls = some m := by
  induction calls with
  | nil => cases h
  | cons call earlier ih =>
    cases call with
    | install new =>
      by_cases hname : new.name = name
      · exact ⟨new, if_pos hname⟩
      · rw [lastInstalled, if_neg hname]
        exact ih h
    | importModule other =>
      by_cases hother : (lastInstalled other earlier).isSome
      · rw [lastImported, if_pos hother] at h
        cases h
        exact Option.isSome_iff_exists.mp hother
      · rw [lastImported, if_neg hother] at h
        exact ih h

/-- The module in which functions are looked up has the imported name, and there is none just if
nothing has been imported. -/
theorem map_name_current (calls : List (LibraryCall σ)) :
    (current calls).map HostModule.name = lastImported calls := by
  unfold current
  cases himported : lastImported calls with
  | none => rfl
  | some name =>
    obtain ⟨m, hm⟩ := exists_lastInstalled himported
    simp only [Option.bind_some, hm, Option.map_some, name_of_lastInstalled hm]

/-- A module that is installed under the imported name takes the place of the one before it. -/
theorem current_install {m : HostModule σ} (h : lastImported calls = some m.name) :
    current (.install m :: calls) = some m := by
  unfold current lastImported
  rw [h]
  exact if_pos rfl

/-- An import selects the module that was installed last under its name. -/
theorem current_importModule {m : HostModule σ} (h : lastInstalled name calls = some m) :
    current (.importModule name :: calls) = some m := by
  unfold current lastImported
  rw [if_pos (by rw [h]; rfl)]
  exact h

end LibraryCall

namespace HostLibrary

open LibraryCall

variable {l : HostLibrary σ} {calls : List (LibraryCall σ)}

/-- The library has what its history says. -/
structure Recalls (l : HostLibrary σ) (calls : List (LibraryCall σ)) : Prop where
  modules : ∀ name : String, l.modules[name]? = lastInstalled name calls
  imported : l.imported = lastImported calls

/-- The empty library has an empty history. -/
theorem recalls_empty : ({} : HostLibrary σ).Recalls [] :=
  ⟨fun _ => Std.TreeMap.getElem?_emptyc, rfl⟩

/-- Whether the host has been brought up does not matter. -/
theorem Recalls.withBootstrapped (h : l.Recalls calls) (bootstrapped : Bool) :
    { l with bootstrapped }.Recalls calls :=
  ⟨h.modules, h.imported⟩

/-- The module imported last is the current one of the history. -/
theorem Recalls.importedModule?_eq (h : l.Recalls calls) : l.importedModule? = current calls := by
  unfold importedModule? current
  rw [h.imported]
  exact congrArg _ (funext h.modules)

/-- Functions are looked up in the module that the history leads to. -/
theorem Recalls.resolve_of_current (h : l.Recalls calls) {m : HostModule σ}
    (hm : current calls = some m) (name : String) : l.resolve name = m.resolve name := by
  unfold resolve
  rw [h.importedModule?_eq, hm]
  rfl

/-- Functions are looked up where the history says. -/
theorem Recalls.resolve_eq (h : l.Recalls calls) (name : String) :
    l.resolve name = resolution calls name := by
  unfold resolve resolution
  rw [h.importedModule?_eq]
  rfl

/-- An installed module replaces the one of its name, imported or not. -/
theorem Recalls.install (h : l.Recalls calls) (m : HostModule σ) (w : World σ) :
    (l.install m w).1.Recalls (.install m :: calls) where
  modules name := by
    change (l.modules.insert m.name m)[name]? = _
    simp only [Std.TreeMap.getElem?_insert, Std.compare_eq_iff_eq, h.modules, lastInstalled]
  imported := h.imported

end HostLibrary

namespace Bridge

open LibraryCall

variable {b b' : Bridge σ} {calls : List (LibraryCall σ)} {capacity : Nat}

/-- The library of the bridge has been asked for these things. The bridge was made with this number
of slots. -/
inductive Stocked (capacity : Nat) : Bridge σ → List (LibraryCall σ) → Prop where
  | new (maxVms : Nat) (limits : Limits) (host : σ) :
      Stocked capacity (.new maxVms capacity limits host) []
  | after {b b' : Bridge σ} {calls : List (LibraryCall σ)} (h : Stocked capacity b calls)
      {fuel : Nat} {op : Operation σ} (hop : op.after fuel b = some b') :
      Stocked capacity b' (op.libraryCall?.toList ++ calls)

/-- A bridge whose library has a history is reachable. -/
theorem Stocked.reachable (h : b.Stocked capacity calls) : b.Reachable := by
  induction h with
  | new maxVms limits host => exact .new maxVms capacity limits host
  | after _ hop ih => exact ih.after hop

/-- Every bridge that operations lead to has such a history. -/
theorem Reachable.exists_stocked (h : b.Reachable) :
    ∃ capacity calls, b.Stocked capacity calls := by
  induction h with
  | new maxVms hookCapacity limits host => exact ⟨hookCapacity, [], .new maxVms limits host⟩
  | after _ hop ih =>
    obtain ⟨capacity, calls, hstocked⟩ := ih
    exact ⟨capacity, _, hstocked.after hop⟩

/-- Importing selects a module that has been installed, and fails if there is none. -/
theorem importModule_eq (h : b.library.Recalls calls) (name : String) :
    b.importModule name =
      if (lastInstalled name calls).isSome then
        .ok { b with
          library := { b.library with imported := some name }
          world := b.world.report .debug s!"imported host module '{name}'" }
      else .error (.moduleNotFound name) := by
  unfold importModule HostLibrary.importModule
  rw [Std.TreeMap.contains_eq_isSome_getElem?, h.modules]
  split <;> rfl

/-- Every operation adds to the history of the library what it has asked for. -/
theorem recalls_after (h : b.library.Recalls calls) {fuel : Nat} {op : Operation σ}
    (hop : op.after fuel b = some b') : b'.library.Recalls (op.libraryCall?.toList ++ calls) := by
  have hother (hinstall : ∀ m, op ≠ .installModule m) (himport : ∀ name, op ≠ .importModule name) :
      b'.library.Recalls calls := by
    obtain ⟨bootstrapped, hlibrary⟩ := (settings_after hop).2.2 hinstall himport
    rw [hlibrary]
    exact h.withBootstrapped bootstrapped
  cases op with
  | installModule m =>
    cases hop
    exact h.install m b.world
  | importModule name =>
    cases hop
    rw [importModule_eq h]
    by_cases hinstalled : (lastInstalled name calls).isSome
    · rw [if_pos hinstalled]
      exact ⟨h.modules, (if_pos hinstalled).symm⟩
    · rw [if_neg hinstalled]
      exact ⟨h.modules, h.imported.trans (if_neg hinstalled).symm⟩
  | _ => exact hother nofun nofun

/-- The library of the bridge has what its history says. -/
theorem Stocked.recalls (h : b.Stocked capacity calls) : b.library.Recalls calls := by
  induction h with
  | new maxVms limits host => exact HostLibrary.recalls_empty
  | after _ hop ih => exact recalls_after ih hop

end Bridge

end Swarm
