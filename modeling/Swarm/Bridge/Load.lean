import Swarm.Bridge.Basic
import Swarm.Bridge.Files
import Swarm.Program.Image

/-!
# Loading scripts

A script is loaded from the image of its program and its debug-symbol table. The
table is read first. A load that fails changes nothing; one that succeeds adds
one machine with the next handle.
-/

namespace Swarm

/-- Why a script cannot be loaded. -/
inductive LoadError where
  /-- The bridge is full. -/
  | capacity (max : Nat)
  /-- A file cannot be read. -/
  | io (path : String) (error : FileError)
  /-- A file is not a debug-symbol table. -/
  | debugRejected (path : String) (error : Debug.TableError)
  /-- A file is not the image of a program. -/
  | bytecodeRejected (path : String) (error : ProgramError)
  deriving DecidableEq, Repr

namespace LoadError

/-- The wording of an error. -/
def message : LoadError → String
  | .capacity max => s!"cannot load more than {max} virtual machines"
  | .io path error => s!"{path}: {error.message}"
  | .debugRejected path error => s!"{path}: can't load debug information: {error.message}"
  | .bytecodeRejected path error => s!"{path}: can't set the bytecode: {error.message}"

/-- The wording of the error behind an error. -/
def source? : LoadError → Option String
  | .capacity _ => none
  | .io _ error => some error.message
  | .debugRejected _ error => some error.message
  | .bytecodeRejected _ error => some error.message

end LoadError

/-- Define the function that prints under both of its names, and the truths. -/
def Store.installPrint (s : Store Native) : Store Native :=
  let (s, value) := s.register "print" .print
  let s := s.setGlobal (Utf8.encode "print") value
  let s := s.setGlobal (Utf8.encode "log") value
  let s := s.setGlobal (Utf8.encode "True") (.int 1)
  s.setGlobal (Utf8.encode "False") (.int 0)

namespace Bridge

variable {σ : Type}

/-- Read a debug-symbol table from a file. -/
def readDebug (files : Files) (path : String) : Except LoadError Debug.Table :=
  match files path with
  | .error error => .error (.io path error)
  | .ok bytes =>
    match Debug.Table.ofBytes bytes with
    | .error error => .error (.debugRejected path error)
    | .ok table => .ok table

/-- Read a program from a file. -/
def readProgram (files : Files) (path : String) : Except LoadError Program :=
  match files path with
  | .error error => .error (.io path error)
  | .ok bytes =>
    match Program.ofBytes bytes with
    | .error error => .error (.bytecodeRejected path error)
    | .ok program => .ok program

/-- Add a machine for a program. -/
def addInstance (b : Bridge σ) (script : String) (program : Program) (debug : Debug.Table)
    (contextId : UInt16) : Bridge σ × Handle :=
  let (_, library, world) := b.library.bootstrap b.world
  let machine := (Machine.new program b.limits contextId .builtin).mapStore Store.installPrint
  let handle : Handle := ⟨b.vmCount⟩
  let text := s!"{handle.text}: loaded {script} (context id {contextId.toNat})"
  ({ b with
      instances := b.instances.push { handle, script, machine, debug }
      library
      world := world.report .debug text }, handle)

/-- Load a script. -/
def load (b : Bridge σ) (files : Files) (bytecodePath debugPath : String) (contextId : UInt16) :
    Except LoadError (Bridge σ × Handle) := do
  if b.maxVms ≤ b.vmCount then throw (.capacity b.maxVms)
  let debug ← readDebug files debugPath
  let program ← readProgram files bytecodePath
  return b.addInstance bytecodePath program debug contextId

end Bridge

end Swarm
