import Swarm.Code.Assembler
import Swarm.Debug.Table
import Swarm.Program.Basic

/-!
# Building programs

A builder assembles code, collects the strings that the code refers to, each
one once, and records which source position every stretch of code comes from.
-/

namespace Swarm.Program

/-- A program under construction. -/
structure Builder where
  /-- Name of the source file. -/
  file : String
  /-- The strings referred to so far. -/
  strings : Array Bytes := #[]
  /-- The code emitted so far. -/
  assembler : Assembler := {}
  /-- The source positions recorded so far. -/
  debug : Debug.Table := {}

namespace Builder

/-- The index of a string, which is added if it is missing; of an index its lowest 16 bits
are kept. -/
def string (b : Builder) (value : Bytes) : Builder × UInt16 :=
  match b.strings.findIdx? (· == value) with
  | some index => (b, UInt16.ofNat index)
  | none => ({ b with strings := b.strings.push value }, UInt16.ofNat b.strings.size)

/-- Emit an instruction. -/
def emit (b : Builder) (i : Instruction) : Builder :=
  { b with assembler := b.assembler.emit i }

/-- Emit a branch whose address the label stands for. -/
def emitBranch (b : Builder) (branch : Branch) : Builder × Label :=
  let (assembler, label) := b.assembler.emitBranch branch
  ({ b with assembler }, label)

/-- Let the label's address be the current offset. -/
def bind (b : Builder) (label : Label) : Builder :=
  { b with assembler := b.assembler.bind label }

/-- The code from the current offset on comes from the given source position. -/
def mark (b : Builder) (line column : UInt32) : Builder :=
  { b with debug := b.debug.record (UInt32.ofNat b.assembler.offset) b.file line column }

/-- Emit an instruction that refers to a string. -/
def emitString (b : Builder) (value : Bytes) (make : UInt16 → Instruction) : Builder :=
  let (b, index) := b.string value
  b.emit (make index)

/-- Push a string. -/
def pushString (b : Builder) (value : Bytes) : Builder := b.emitString value .pushString

/-- Push a global variable. -/
def loadGlobal (b : Builder) (name : String) : Builder :=
  b.emitString (Utf8.encode name) .globalLoad

/-- Pop into a global variable. -/
def storeGlobal (b : Builder) (name : String) : Builder :=
  b.emitString (Utf8.encode name) .globalStore

/-- Store a function in a global variable; the label stands for the start of its body. -/
def define (b : Builder) (name : String) : Builder × Label :=
  let (b, index) := b.string (Utf8.encode name)
  let (b, label) := b.emitBranch .pushClosure
  (b.emit (.globalStore index), label)

/-- Call a global function with the arguments that `arguments` pushes; it says how many. -/
def callGlobal (b : Builder) (name : String) (arguments : Builder → Builder × UInt8) : Builder :=
  let (b, count) := arguments (b.loadGlobal name)
  b.emit (.call count)

/-- The finished program with its debug-symbol table. -/
def finish (b : Builder) : Except ProgramError (Program × Debug.Table) :=
  match Program.new? b.strings b.assembler.code with
  | .ok program => .ok (program, b.debug)
  | .error error => .error error

end Builder

end Swarm.Program
