import Swarm.Program.Builder
import Swarm.Proofs.Images

/-!
# Building a program call by call

Whatever is called on a builder, it does five things: it looks a string up or adds it, records a
source position, emits an instruction, emits a branch with a label, or binds a label. All calls
are made of these steps, so what every step preserves holds after any calls.
-/

namespace Swarm.Program.Builder

/-- What a call did, as far as strings, source positions and places in the code go. -/
inductive Event where
  /-- A string was asked for, and its index was returned. -/
  | named (value : Bytes) (index : UInt16)
  /-- The source position of the code that follows was recorded. -/
  | marked (line column : UInt32)
  /-- An instruction was emitted at the offset; the address of one with a label is still zero. -/
  | emitted (offset : Nat) (i : Instruction)
  deriving DecidableEq

/-- The events of emitting an instruction that refers to a string. -/
def naming (b : Builder) (value : Bytes) (make : UInt16 → Instruction) : List Event :=
  [.named value (b.string value).2, .emitted b.assembler.offset (make (b.string value).2)]

/-- The events of storing a function in a global variable. -/
def defining (b : Builder) (name : String) : List Event :=
  [.named (Utf8.encode name) (b.string (Utf8.encode name)).2,
    .emitted b.assembler.offset (.pushClosure 0),
    .emitted (b.assembler.offset + (Instruction.pushClosure 0).size)
      (.globalStore (b.string (Utf8.encode name)).2)]

/-- One of the things that a builder does, with the events that tell of it. A branch to an address
that is known is emitted like any other instruction. -/
inductive Step : Builder → List Event → Builder → Prop where
  | string (b : Builder) (value : Bytes) :
      Step b [.named value (b.string value).2] (b.string value).1
  | mark (b : Builder) (line column : UInt32) :
      Step b [.marked line column] (b.mark line column)
  | emit (b : Builder) (i : Instruction) : Step b [.emitted b.assembler.offset i] (b.emit i)
  | emitBranch (b : Builder) (branch : Branch) :
      Step b [.emitted b.assembler.offset (branch.to 0)] (b.emitBranch branch).1
  | bind (b : Builder) (label : Label) : Step b [] (b.bind label)

/-- A sequence of calls that leads from one builder to another, with what they did. Any label may
be bound. What pushes the arguments of a call may itself make any calls. -/
inductive Calls : Builder → List Event → Builder → Prop where
  | start (b : Builder) : Calls b [] b
  | step {a b c : Builder} {events more : List Event} (h : Calls a events b)
      (hstep : Step b more c) : Calls a (events ++ more) c
  | pushString {a b : Builder} {events : List Event} (h : Calls a events b) (value : Bytes) :
      Calls a (events ++ b.naming value .pushString) (b.pushString value)
  | loadGlobal {a b : Builder} {events : List Event} (h : Calls a events b) (name : String) :
      Calls a (events ++ b.naming (Utf8.encode name) .globalLoad) (b.loadGlobal name)
  | storeGlobal {a b : Builder} {events : List Event} (h : Calls a events b) (name : String) :
      Calls a (events ++ b.naming (Utf8.encode name) .globalStore) (b.storeGlobal name)
  | define {a b : Builder} {events : List Event} (h : Calls a events b) (name : String) :
      Calls a (events ++ b.defining name) (b.define name).1
  | callGlobal {a b : Builder} {events inner : List Event} (h : Calls a events b) (name : String)
      (arguments : Builder → Builder × UInt8)
      (hinner : Calls (b.loadGlobal name) inner (arguments (b.loadGlobal name)).1) :
      Calls a (events ++ b.naming (Utf8.encode name) .globalLoad ++ inner ++
          [.emitted (arguments (b.loadGlobal name)).1.assembler.offset
            (.call (arguments (b.loadGlobal name)).2)])
        (b.callGlobal name arguments)

/-- Things that a builder does one after the other. -/
inductive Steps : Builder → List Event → Builder → Prop where
  | refl (b : Builder) : Steps b [] b
  | tail {a b c : Builder} {events more : List Event} (h : Steps a events b)
      (hstep : Step b more c) : Steps a (events ++ more) c

variable {a b c : Builder} {events more : List Event}

/-- Steps one after the other are steps. -/
theorem Steps.trans (h : Steps a events b) (h' : Steps b more c) :
    Steps a (events ++ more) c := by
  induction h' with
  | refl => rwa [List.append_nil]
  | tail _ hstep ih =>
    rw [← List.append_assoc]
    exact ih.tail hstep

/-! ### What the builder does to its code -/

/-- Adding a string leaves the code. -/
@[simp] theorem assembler_string (b : Builder) (value : Bytes) :
    (b.string value).1.assembler = b.assembler := by
  unfold string
  split <;> rfl

/-- Emitting an instruction moves the offset by its size. -/
theorem offset_emit (b : Builder) (i : Instruction) :
    (b.emit i).assembler.offset = b.assembler.offset + i.size :=
  b.assembler.offset_emit i

/-- Emitting a branch moves the offset by its size. -/
theorem offset_emitBranch (b : Builder) (branch : Branch) :
    (b.emitBranch branch).1.assembler.offset = b.assembler.offset + (branch.to 0).size := by
  rw [← b.offset_emit (branch.to 0), emit, ← b.assembler.emitBranch_fst]
  rfl

/-- Overwriting leaves the size of the code. -/
theorem size_overwrite (code : Code) (position : Nat) (bs : Bytes) :
    (Assembler.overwrite code position bs).size = code.size := by
  induction bs generalizing code position with
  | nil => rfl
  | cons b bs ih => rw [Assembler.overwrite, ih, Array.size_setIfInBounds]

/-- Binding a label keeps the current offset. -/
theorem offset_bind (b : Builder) (label : Label) :
    (b.bind label).assembler.offset = b.assembler.offset := by
  simp only [bind, Assembler.bind, Assembler.offset, size_overwrite]

/-- Looking a string up and emitting an instruction that refers to it are two steps. -/
theorem Steps.emitString (h : Steps a events b) (value : Bytes) (make : UInt16 → Instruction) :
    Steps a (events ++ b.naming value make) (b.emitString value make) := by
  have hemit := (h.tail (.string b value)).tail (.emit _ (make (b.string value).2))
  rw [List.append_assoc, assembler_string] at hemit
  exact hemit

/-- All calls are made of the things that a builder does. -/
theorem Calls.steps (h : Calls a events b) : Steps a events b := by
  induction h with
  | start b => exact .refl b
  | step _ hstep ih => exact ih.tail hstep
  | pushString _ value ih => exact ih.emitString value .pushString
  | loadGlobal _ name ih => exact ih.emitString (Utf8.encode name) .globalLoad
  | storeGlobal _ name ih => exact ih.emitString (Utf8.encode name) .globalStore
  | @define a b events _ name ih =>
    have hstring := ih.tail (.string b (Utf8.encode name))
    have hclosure := hstring.tail (.emitBranch _ .pushClosure)
    have hstore := hclosure.tail (.emit _ (.globalStore (b.string (Utf8.encode name)).2))
    rw [offset_emitBranch, assembler_string, List.append_assoc, List.append_assoc] at hstore
    exact hstore
  | @callGlobal a b events inner _ name arguments _ ih ihinner =>
    exact ((ih.emitString (Utf8.encode name) .globalLoad).trans ihinner).tail (.emit _ _)

/-! ### What is finished -/

/-- What is finished has the builder's strings, code and positions. -/
theorem finish_eq_ok_iff {p : Program} {t : Debug.Table} :
    b.finish = .ok (p, t) ↔ p.strings = b.strings ∧ p.code = b.assembler.code ∧ t = b.debug := by
  rw [← and_assoc, ← new?_eq_ok_iff]
  unfold finish
  cases new? b.strings b.assembler.code with
  | error e => simp
  | ok q => simp [eq_comm]

end Swarm.Program.Builder
