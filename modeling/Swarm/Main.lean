import Swarm.CommandLine.Session

/-!
# The program

A session on real files and a real clock, which is set before each tick. What
scripts print goes to standard output and what the session reports goes to
standard error, after each tick.
-/

namespace Swarm

/-- Why a file could not be read. -/
def fileError : IO.Error → FileError
  | .noFileOrDirectory .. => .notFound
  | .inappropriateType _ 21 _ => .isADirectory
  | .inappropriateType .. => .notADirectory
  | .invalidArgument .. => .invalidFilename
  | error => .other (toString error)

/-- Read a file. -/
def readFile (path : String) : IO (Except FileError Bytes) := do
  try return .ok (← IO.FS.readBinFile path).toList
  catch error => return .error (fileError error)

namespace Session

/-- Write out what a session has printed and reported, and forget it. -/
def write (s : Session) : IO Session := do
  let world := s.bridge.world
  let out ← IO.getStdout
  out.putStr world.output
  out.flush
  for entry in world.journal do
    if entry.level.rank ≤ Level.info.rank then IO.eprintln entry.line
  return { s with bridge := { s.bridge with world := { world with output := "", journal := #[] } } }

/-- A clock that is set to a number of microseconds and gains one with every reading, so that no
script waits for it in vain. -/
def ticking (microseconds : Nat) : Clock where
  readings count := Float.ofNat (microseconds + count) / 1000000

/-- Set the clock that scripts read to the time since a start in nanoseconds. -/
def setClock (s : Session) (started : Nat) : IO Session := do
  let host := ticking (((← IO.monoNanosNow) - started) / 1000)
  return { s with bridge := { s.bridge with world := { s.bridge.world with host } } }

/-- More steps than any session takes. -/
def plenty : Nat := 1000000000000000000

/-- The answer of work that had plenty of steps. -/
def expect {α : Type} : Option α → IO α
  | some answer => return answer
  | none => throw (IO.userError "too many steps")

/-- Play a session; the answer is its exit code. -/
def play (o : Options) : IO UInt32 := do
  let started ← IO.monoNanosNow
  let bytecode ← readFile o.bytecode
  let debug ← readFile o.debug
  let files : Files := fun path => if path = o.bytecode then bytecode else debug
  let (exit, s) ← expect (start o files plenty (ticking 0).readings)
  let mut s ← s.write
  if let some code := exit then return code
  for number in [0:o.ticks.toNat] do
    let (goesOn, after) ← expect ((← s.setClock started).tick plenty number)
    s ← after.write
    unless goesOn do break
  let (code, after) ← expect (s.finish plenty)
  discard after.write
  return code

end Session

end Swarm

/-- Play the session that a command line asks for. -/
def main (arguments : List String) : IO UInt32 :=
  match Swarm.Options.parse? arguments with
  | none => return 2
  | some o => Swarm.Session.play o
