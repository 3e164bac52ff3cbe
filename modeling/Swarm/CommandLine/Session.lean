import Swarm.Bridge.Hooks
import Swarm.Bridge.Load
import Swarm.CommandLine.Options
import Swarm.Hub.Tick

/-!
# Sessions

A session runs one script on a line of agents for a number of ticks. It ends
early when all agents have stopped; the exit code is one if the session could
not begin or a script has faulted, and two if too many agents are asked for.

The only state of the host is its clock, which scripts read with the function
`clock`: the number of seconds since the start, a new reading at every call.
-/

namespace Swarm

/-- The clock of the host. What it shows is not known beforehand, so the readings that it gives
one after the other may be any numbers. -/
structure Clock where
  /-- The readings, in seconds since the start. -/
  readings : Nat → Float
  /-- The number of readings that have been taken. -/
  taken : Nat := 0

namespace Clock

/-- Take the next reading. -/
def read (c : Clock) : Float × Clock := (c.readings c.taken, { c with taken := c.taken + 1 })

end Clock

/-- Agents at work. -/
structure Session where
  hub : Hub
  bridge : Bridge Clock

/-- Why a session cannot begin. -/
inductive SetupError where
  | hook (error : HookError)
  | load (error : LoadError)
  deriving DecidableEq, Repr

/-- The wording of an error. -/
def SetupError.message : SetupError → String
  | .hook error => error.message
  | .load error => error.message

namespace Session

/-- The name of the module that scripts can reach. -/
def moduleName : String := "hive"

/-- The function that prepares the module. -/
def prepareModule : HostFunction Clock := fun _ w => (.ok .none, w.report .info "host module ready")

/-- The function that reads the clock. -/
def clock : HostFunction Clock := fun _ w =>
  let (seconds, host) := w.host.read
  (.ok (.float seconds), { w with host })

/-- The module that scripts can reach. -/
def hostModule : HostModule Clock :=
  ({ name := moduleName } : HostModule Clock)
    |>.add initFunction (.function prepareModule)
    |>.add "clock" (.function clock)

/-- A session without agents. -/
def new (neighborDistance : Float32) (readings : Nat → Float) : Session where
  hub := { neighborDistance }
  bridge := Bridge.new 15 Bridge.defaultHookCapacity {} { readings }

/-- Work on a session that ends at the first error and keeps what was done before it. -/
abbrev Setup := ExceptT SetupError (StateM Session)

/-- Change the bridge of the session. -/
def changeHooks (f : Bridge Clock → Except HookError (Bridge Clock)) : Setup Unit := fun s =>
  match f s.bridge with
  | .ok bridge => (.ok (), { s with bridge })
  | .error error => (.error (.hook error), s)

/-- Prepare the module that scripts can reach. -/
def setupModule : Setup Unit := do
  modify fun s => { s with bridge := s.bridge.installModule hostModule }
  changeHooks fun b => b.importModule moduleName
  fun s =>
    let (result, bridge) := s.bridge.registerInit
    (result.mapError .hook, { s with bridge })

/-- Load the script for an agent and put the agent in its place on the line. -/
def setupAgent (o : Options) (files : Files) (id : UInt16) : Setup Unit := do
  let s ← get
  match s.bridge.load files o.bytecode o.debug id with
  | .error error => throw (.load error)
  | .ok (bridge, vm) =>
    set { s with bridge }
    changeHooks fun b => b.registerHook vm 0 "clock"
    let position : Position := ⟨Float32.ofNat id.toNat * o.spacing, 0, 0⟩
    modify fun s => { s with hub := s.hub.addAgent ⟨vm, id⟩ position }

/-- Prepare the module and all agents. -/
def setup (o : Options) (files : Files) : Setup Unit := do
  setupModule
  for id in List.range o.agents.toNat do setupAgent o files (UInt16.ofNat id)

/-- Report something. -/
def report (s : Session) (level : Level) (text : String) : Session :=
  { s with bridge := s.bridge.report level text }

/-- Unload all scripts. The answer tells whether one of them has faulted. -/
def close (s : Session) (fuel : Nat) : Option (Bool × Session) :=
  (s.bridge.destroyAll fuel).map fun (diagnoses, bridge) =>
    (!diagnoses.isEmpty, { s with bridge })

/-- Begin a session. If it cannot begin the answer has an exit code. -/
def start (o : Options) (files : Files) (fuel : Nat) (readings : Nat → Float) :
    Option (Option UInt32 × Session) :=
  let s := new o.neighborDistance readings
  if s.bridge.maxVms < o.agents.toNat then
    some (some 2, s.report .error s!"at most {s.bridge.maxVms} agents are supported")
  else
    match setup o files s with
    | (.ok (), s) => some (none, s)
    | (.error error, s) =>
      ((s.report .error error.message).close fuel).map fun (_, s) => (some 1, s)

/-- One tick. The answer tells whether the session goes on after it. -/
def tick (s : Session) (fuel : Nat) (number : Nat) : Option (Bool × Session) :=
  (s.hub.tick fuel s.bridge).map fun ending =>
    let s : Session := ⟨ending.hub, ending.bridge⟩
    match ending.result with
    | .error error => (false, s.report .error s!"tick {number}: {error.message}")
    | .ok r =>
      let counts := s!"{r.stepped} stepped, {r.faulted} faulted, {r.routed} messages routed"
      let s := s.report .info s!"tick {number}: {counts}"
      if r.stepped = 0 then (false, s.report .warn "every agent has faulted, stopping")
      else (true, s)

/-- Ticks from a number on, as long as the session goes on. -/
def ticks (s : Session) (fuel : Nat) (number : Nat) : Nat → Option Session
  | 0 => some s
  | count + 1 => do
    match ← s.tick fuel number with
    | (true, s) => s.ticks fuel (number + 1) count
    | (false, s) => return s

/-- End a session; the answer has the exit code. -/
def finish (s : Session) (fuel : Nat) : Option (UInt32 × Session) :=
  (s.close fuel).map fun (failed, s) => (if failed then 1 else 0, s)

/-- A whole session; the answer has the exit code. -/
def run (o : Options) (files : Files) (fuel : Nat) (readings : Nat → Float) :
    Option (UInt32 × Session) := do
  match ← start o files fuel readings with
  | (some code, s) => return (code, s)
  | (none, s) => (← s.ticks fuel 0 o.ticks.toNat).finish fuel

end Session

/-- What a program that was given the arguments leaves behind: its exit code, what scripts have
printed, and what it reports. Arguments that ask for nothing give exit code two. Unless readings
are given, the clock stands still. -/
def runCommandLine (arguments : List String) (files : Files) (fuel : Nat)
    (readings : Nat → Float := fun _ => 0) : Option (UInt32 × String × Array LogEntry) :=
  match Options.parse? arguments with
  | none => some (2, "", #[])
  | some o => (Session.run o files fuel readings).map fun (code, s) =>
    let world := s.bridge.world
    (code, world.output, world.journal.filter fun e => e.level.rank ≤ Level.info.rank)

end Swarm
