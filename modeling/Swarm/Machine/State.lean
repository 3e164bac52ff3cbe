import Swarm.Machine.Error
import Swarm.Machine.Heap
import Swarm.Machine.Messages
import Swarm.Machine.Neighbors
import Swarm.Program.Basic
import Swarm.Text.Utf8

/-!
# The state of a machine

A machine runs one program. Its store is what outlives every call: strings,
tables, global variables, native functions, neighbors and messages; native
functions and the host may change it. Its stack, frames, position in the code
and fault belong to the execution of instructions alone.

Native functions are data of some type `ν`; what they do is given elsewhere.
-/

namespace Swarm

/-- Bounds on what a script can use. -/
structure Limits where
  /-- The greatest number of values on the stack. -/
  maxStack : Nat := 1024
  /-- The number of frames from which on no call is made. -/
  maxCallDepth : Nat := 256
  deriving DecidableEq, Repr

/-- A native function and the name it was registered with. -/
structure NamedNative (ν : Type) where
  name : String
  native : ν

/-- What outlives every call. -/
structure Store (ν : Type) where
  /-- All strings in use. -/
  strings : StringTable := {}
  /-- All tables. -/
  heap : Heap := {}
  /-- The global variables by the id of their name. -/
  globals : Std.TreeMap StringId Value := {}
  /-- The native functions by number. -/
  natives : Array (NamedNative ν) := #[]
  /-- The function that hears messages. -/
  listener : Option Value := none
  /-- The agents seen, for the host. -/
  neighbors : List Neighbor := []
  /-- The table of the agents seen, for the script. -/
  neighborsTable : TableId := ⟨0⟩
  /-- Messages to and from the script. -/
  mailbox : Mailbox := {}

namespace Store

variable {ν : Type}

/-- The string value with the given bytes. -/
def intern (s : Store ν) (bytes : Bytes) : Store ν × Value :=
  let (strings, id) := s.strings.intern bytes
  ({ s with strings }, .str id)

/-- Give a global variable a value. -/
def setGlobal (s : Store ν) (name : Bytes) (value : Value) : Store ν :=
  let (strings, id) := s.strings.intern name
  { s with strings, globals := s.globals.insert id value }

/-- The value of a global variable; the empty one where there is none. -/
def global (s : Store ν) (name : Bytes) : Value :=
  match s.strings.lookup name with
  | none => .nil
  | some id => s.globals[id]?.getD .nil

/-- The value of a new empty table. -/
def newTable (s : Store ν) : Store ν × TableId :=
  let (heap, id) := s.heap.alloc
  ({ s with heap }, id)

/-- Store a value in a table under a string. -/
def putField (s : Store ν) (id : TableId) (name : Bytes) (value : Value) : Store ν :=
  let (strings, key) := s.strings.intern name
  { s with strings, heap := s.heap.put id (.str key) value }

/-- The value of a new table with the coordinates of a point. -/
def newPoint (s : Store ν) (p : Position) : Store ν × Value :=
  let (s, id) := s.newTable
  let s := s.putField id (Utf8.encode "x") (.float p.x.toFloat)
  let s := s.putField id (Utf8.encode "y") (.float p.y.toFloat)
  let s := s.putField id (Utf8.encode "z") (.float p.z.toFloat)
  (s, .table id)

/-- Add a native function; the value calls it. -/
def register (s : Store ν) (name : String) (native : ν) : Store ν × Value :=
  ({ s with natives := s.natives.push ⟨name, native⟩ }, .closure (.native s.natives.size))

/-- Add a native function and make it the value of the global variable of its name. -/
def define (s : Store ν) (name : String) (native : ν) : Store ν × Value :=
  let (s, value) := s.register name native
  (s.setGlobal (Utf8.encode name) value, value)

/-- Forget all neighbors; the script gets a new table for them. -/
def resetNeighbors (s : Store ν) : Store ν :=
  let (s, id) := s.newTable
  { s with neighbors := [], neighborsTable := id }.setGlobal (Utf8.encode "neighbors") (.table id)

/-- Show an agent to the script. -/
def addNeighbor (s : Store ν) (n : Neighbor) : Store ν :=
  let (s, point) := s.newPoint n.position
  { s with
    neighbors := n.insert s.neighbors
    heap := s.heap.put s.neighborsTable (.int (Int64.ofNat n.id.toNat)) point }

/-- Queue a message to the script. -/
def receive (s : Store ν) (message : Message) : Store ν :=
  { s with mailbox := s.mailbox.receive message }

/-- Queue a payload sent by the script. -/
def send (s : Store ν) (payload : Bytes) : Store ν :=
  { s with mailbox := s.mailbox.send payload }

/-- Take the oldest payload sent by the script. -/
def takeOutbound (s : Store ν) : Option Bytes × Store ν :=
  let (payload, mailbox) := s.mailbox.takeOutbound
  (payload, { s with mailbox })

end Store

/-- What a frame runs. -/
inductive FrameKind where
  /-- The body of the script, which alone may end with the end of the script. -/
  | script
  /-- A function of the script. -/
  | function
  /-- A native function. -/
  | native
  deriving DecidableEq, Repr

/-- A call in progress. -/
structure Frame where
  /-- What the frame runs. -/
  kind : FrameKind
  /-- Where the caller continues. -/
  returnPc : Nat
  /-- The local symbols; the first one is the called value. -/
  locals : Array Value
  /-- The size of the stack that belongs to the callers. -/
  stackBase : Nat

/-- Give a local symbol a value; symbols that are missing before it are empty. -/
def Frame.setLocal (f : Frame) (index : Nat) (value : Value) : Frame :=
  { f with
    locals := (f.locals ++ Array.replicate (index + 1 - f.locals.size) Value.nil).setIfInBounds
      index value }

/-- Where and why execution stopped for good. -/
structure Fault where
  /-- Offset in the code. -/
  pc : Nat
  /-- What failed. -/
  error : RuntimeError
  deriving DecidableEq, Repr

/-- A machine. -/
structure Machine (ν : Type) where
  /-- The id that the script knows its agent by. -/
  contextId : UInt16
  /-- Bounds on what the script can use. -/
  limits : Limits
  /-- The program that the machine runs. -/
  program : Program
  /-- The ids of the strings of the program. -/
  programStrings : Array StringId
  /-- What outlives every call. -/
  store : Store ν
  /-- Operands of all calls in progress, the topmost last. -/
  stack : Array Value := #[]
  /-- The calls in progress, the innermost last. -/
  frames : Array Frame := #[]
  /-- Where the next instruction starts. -/
  pc : Nat := 0
  /-- Why the machine has stopped for good, if it has. -/
  fault : Option Fault := none

namespace Machine

variable {ν : Type}

/-- Whether the machine has not faulted. -/
def isReady (m : Machine ν) : Bool := m.fault.isNone

/-- Change the store. -/
def mapStore (m : Machine ν) (f : Store ν → Store ν) : Machine ν := { m with store := f m.store }

/-- Change the store and return a value with it. -/
def withStore {α : Type} (m : Machine ν) (f : Store ν → Store ν × α) : Machine ν × α :=
  let (store, a) := f m.store
  ({ m with store }, a)

/-- The number of local symbols of the innermost call. -/
def localCount (m : Machine ν) : Nat :=
  match m.frames.back? with
  | none => 0
  | some frame => frame.locals.size

/-- A local symbol of the innermost call. -/
def local? (m : Machine ν) (index : Nat) : Except RuntimeError Value :=
  match m.frames.back?.bind (·.locals[index]?) with
  | some value => .ok value
  | none => .error (.undefinedLocal (UInt16.ofNat index))

/-- The local symbols of the innermost call after the first one. -/
def arguments (m : Machine ν) : List Value :=
  match m.frames.back? with
  | none => []
  | some frame => frame.locals.toList.tail

/-- Record a fault, unless there is one already. -/
def recordFault (m : Machine ν) (pc : Nat) (error : RuntimeError) : Machine ν :=
  match m.fault with
  | none => { m with fault := some ⟨pc, error⟩ }
  | some _ => m

end Machine

end Swarm
