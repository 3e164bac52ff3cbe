import Std.Data.TreeMap
import Swarm.Host.Value
import Swarm.Journal

/-!
# Modules of the host

A module has a name and members, which are functions or plain attributes. A
library of the host knows the installed modules and which one of them is
imported; functions are looked up in the imported module.

Functions of the host may change the world around them.
-/

namespace Swarm

/-- The place of a loaded machine. -/
structure Handle where
  index : Nat
  deriving DecidableEq, Repr

/-- A handle as it is written in messages. -/
def Handle.text (h : Handle) : String := s!"vm#{h.index}"

/-- A call of a function of the host. -/
structure HookCall where
  /-- The calling machine; there is none if the host itself calls. -/
  vm : Option Handle
  /-- What is passed. -/
  arguments : List HostValue

/-- A function of the host: its result, or a message why it failed, and the world after it. -/
abbrev HostFunction (σ : Type) := HookCall → World σ → Except String HostValue × World σ

/-- Why a function of the host cannot be found or bound. -/
inductive HookError where
  /-- There is no such slot. -/
  | slotOutOfRange (slot capacity : Nat)
  /-- No module is imported. -/
  | noModuleImported
  /-- No module of this name is installed. -/
  | moduleNotFound (name : String)
  /-- The imported module has no such member. -/
  | unresolvedName (module name : String)
  /-- The member is not a function. -/
  | notCallable (module name : String)
  /-- No machine has this handle. -/
  | unknownVm (vm : Handle)
  /-- The function that prepares the module failed. -/
  | initFailed (message : String)
  deriving DecidableEq, Repr

/-- The function of a module that prepares it. -/
def initFunction : String := "host_init"

/-- The wording of an error. -/
def HookError.message : HookError → String
  | .slotOutOfRange slot capacity => s!"hook slot {slot} is out of range (capacity {capacity})"
  | .noModuleImported => "no host module has been imported"
  | .moduleNotFound name => s!"host module '{name}' is not installed"
  | .unresolvedName module name => s!"can't find function '{name}' in module '{module}'"
  | .notCallable module name => s!"'{name}' in module '{module}' is not callable"
  | .unknownVm vm => s!"unknown virtual machine {vm.text}"
  | .initFailed message => s!"{initFunction} failed: {message}"

/-- A member of a module. -/
inductive Member (σ : Type) where
  | function (f : HostFunction σ)
  | attribute (value : HostValue)

/-- A named collection of members. -/
structure HostModule (σ : Type) where
  name : String
  members : Std.TreeMap String (Member σ) := {}

namespace HostModule

variable {σ : Type}

/-- Add a member; it replaces one of the same name. -/
def add (m : HostModule σ) (name : String) (member : Member σ) : HostModule σ :=
  { m with members := m.members.insert name member }

/-- The member with a name. -/
def get? (m : HostModule σ) (name : String) : Option (Member σ) := m.members[name]?

end HostModule

/-- The installed modules and which of them is imported. -/
structure HostLibrary (σ : Type) where
  modules : Std.TreeMap String (HostModule σ) := {}
  imported : Option String := none
  /-- Whether the host has been brought up. -/
  bootstrapped : Bool := false

namespace HostLibrary

variable {σ : Type}

/-- Bring up the host; the answer tells whether this was the first time. -/
def bootstrap (l : HostLibrary σ) (w : World σ) : Bool × HostLibrary σ × World σ :=
  if l.bootstrapped then (false, l, w)
  else (true, { l with bootstrapped := true }, w.report .info "host runtime initialized")

/-- Make a module importable; it replaces one of the same name. -/
def install (l : HostLibrary σ) (m : HostModule σ) (w : World σ) : HostLibrary σ × World σ :=
  ({ l with modules := l.modules.insert m.name m },
    w.report .debug s!"installing host module '{m.name}'")

/-- Import an installed module. -/
def importModule (l : HostLibrary σ) (name : String) (w : World σ) :
    Except HookError (HostLibrary σ × World σ) :=
  if l.modules.contains name then
    .ok ({ l with imported := some name }, w.report .debug s!"imported host module '{name}'")
  else .error (.moduleNotFound name)

/-- The imported module. -/
def importedModule? (l : HostLibrary σ) : Option (HostModule σ) :=
  l.imported.bind fun name => l.modules[name]?

/-- The function with a name in the imported module. -/
def resolve (l : HostLibrary σ) (name : String) : Except HookError (HostFunction σ) :=
  match l.importedModule? with
  | none => .error .noModuleImported
  | some m =>
    match m.get? name with
    | some (.function f) => .ok f
    | some (.attribute _) => .error (.notCallable m.name name)
    | none => .error (.unresolvedName m.name name)

end HostLibrary

end Swarm
