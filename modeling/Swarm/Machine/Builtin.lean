import Swarm.Machine.Native

/-!
# Functions that every script has

`send(payload)` queues a string for transmission, `listen(handler)` lets a
function hear messages, `size(table)` counts the keys of a table, and
`foreach(table, visitor)` calls a function with every key and value that the
table held at the start, in the order of the keys.
-/

namespace Swarm

/-- A function that every script has. -/
inductive Builtin where
  | send | listen | size | foreach
  deriving DecidableEq, Repr

/-- A visit of rows that goes on after every call. -/
structure Traversal where
  /-- The function that is called. -/
  visitor : Value
  /-- The rows that are left. -/
  rest : List (TableKey × Value)

/-- Call the visitor with the next row. -/
def Traversal.move (t : Traversal) : Move Traversal :=
  match t.rest with
  | [] => .finish (.ok .nil)
  | (key, value) :: rest => .call t.visitor [key.toValue, value] { t with rest }

/-- Go on after a call of the visitor, unless it failed. -/
def Traversal.resume (t : Traversal) : Except RuntimeError Value → Move Traversal
  | .ok _ => t.move
  | .error error => .finish (.error error)

namespace Builtin

variable {ν : Type}

/-- The functions in the order of their numbers. -/
def all : List Builtin := [.send, .listen, .size, .foreach]

/-- The name of a function in scripts. -/
def name : Builtin → String
  | .send => "send"
  | .listen => "listen"
  | .size => "size"
  | .foreach => "foreach"

/-- Queue the string that is the argument. -/
def runSend (m : Machine ν) : Except RuntimeError (Store ν) := do
  match ← m.argument "send" 1 with
  | .str id => return m.store.send (m.store.strings.get id)
  | other => throw (.typeError "send" "string" other.kind)

/-- Let the function that is the argument hear messages. -/
def runListen (m : Machine ν) : Except RuntimeError (Store ν) := do
  match ← m.argument "listen" 1 with
  | .closure c => return { m.store with listener := some (.closure c) }
  | other => throw (.typeError "listen" "closure" other.kind)

/-- Count the keys of the table that is the argument. -/
def runSize (m : Machine ν) : Except RuntimeError Value := do
  match ← m.argument "size" 1 with
  | .table id => return .int (Int64.ofNat (m.store.heap.table id).size)
  | other => throw (.typeError "size" "table" other.kind)

/-- Take down the rows of the table that is the first argument. -/
def beginForeach (m : Machine ν) : Except RuntimeError Traversal := do
  let table ← m.argument "foreach" 1
  let visitor ← m.argument "foreach" 2
  match table with
  | .table id => return ⟨visitor, (m.store.heap.table id).toList⟩
  | other => throw (.typeError "foreach" "table" other.kind)

/-- End with the empty value and a changed store, or with an error. -/
def finishWith (m : Machine ν) : Except RuntimeError (Store ν) → Move Traversal × Store ν
  | .ok store => (.finish (.ok .nil), store)
  | .error error => (.finish (.error error), m.store)

/-- Begin a function in its frame. -/
def enter (b : Builtin) (m : Machine ν) : Move Traversal × Store ν :=
  match b with
  | .send => finishWith m (runSend m)
  | .listen => finishWith m (runListen m)
  | .size => (.finish (runSize m), m.store)
  | .foreach =>
    match beginForeach m with
    | .ok traversal => (traversal.move, m.store)
    | .error error => (.finish (.error error), m.store)

/-- Define a function in a store. -/
def install (toNative : Builtin → ν) (s : Store ν) (b : Builtin) : Store ν :=
  (s.define b.name (toNative b)).1

end Builtin

namespace StringTable

/-- Intern strings in their order; their ids come after those found before. -/
def internAll (t : StringTable) (strings : Array Bytes) : StringTable × Array StringId :=
  strings.foldl (fun (t, ids) string =>
    let (t, id) := t.intern string
    (t, ids.push id)) (t, #[])

end StringTable

namespace Machine

variable {ν : Type}

/-- A new machine: the strings of the program have the first ids, then the script gets its
context id, the functions that every script has, and an empty table of neighbors. -/
def new (program : Program) (limits : Limits) (contextId : UInt16) (toNative : Builtin → ν) :
    Machine ν :=
  let (strings, programStrings) := StringTable.internAll {} program.strings
  let store : Store ν := { strings }
  let store := store.setGlobal (Utf8.encode "id") (.int (Int64.ofNat contextId.toNat))
  let store := Builtin.all.foldl (Builtin.install toNative) store
  { contextId, limits, program, programStrings, store := store.resetNeighbors }

end Machine

end Swarm
