import Swarm.Decimal.Numeral

/-!
# Command line

A command line has two paths and options, each at most once, with the value
after an equals sign or as the next argument. A value that begins with a hyphen
needs the equals sign, unless it is a hyphen alone; after two hyphens alone
every argument is a path.
-/

namespace Swarm

/-- What a command line asks for. -/
structure Options where
  /-- Path of the image. -/
  bytecode : String
  /-- Path of the debug-symbol table. -/
  debug : String
  /-- The number of agents. -/
  agents : UInt16 := 3
  /-- The number of ticks. -/
  ticks : UInt32 := 10
  /-- Agents farther apart than this do not see each other. -/
  neighborDistance : Float32 := 10
  /-- The distance between agents at the start. -/
  spacing : Float32 := 5

namespace Options

/-- The arguments of a command line, sorted into paths and options with values. -/
structure Sorted where
  paths : List String := []
  named : List (String × String) := []

/-- Add an option, which must be new. -/
def Sorted.addOption? (s : Sorted) (name value : String) : Option Sorted :=
  if (s.named.lookup name).isSome then none
  else some { s with named := s.named ++ [(name, value)] }

/-- Add a path, which must not be empty. -/
def Sorted.addPath? (s : Sorted) (path : String) : Option Sorted :=
  if path.isEmpty then none else some { s with paths := s.paths ++ [path] }

/-- The text after two hyphens, if an argument begins with them. -/
def longName? (argument : String) : Option (List Char) :=
  match argument.toList with
  | '-' :: '-' :: rest => some rest
  | _ => none

/-- Whether an argument can only be an option. -/
def isHyphenated (argument : String) : Bool := argument.startsWith "-" && argument != "-"

/-- Sort arguments. -/
def sort (s : Sorted) : List String → Option Sorted
  | [] => some s
  | argument :: rest =>
    match longName? argument with
    | some [] => rest.foldlM Sorted.addPath? s
    | some text =>
      let name := String.ofList (text.takeWhile (· != '='))
      match text.dropWhile (· != '=') with
      | _ :: value => do sort (← s.addOption? name (String.ofList value)) rest
      | [] =>
        match rest with
        | [] => none
        | value :: rest =>
          if isHyphenated value then none else do sort (← s.addOption? name value) rest
    | none =>
      if isHyphenated argument then none else do sort (← s.addPath? argument) rest

/-- A whole number below a bound. -/
def readBelow? (bound : Nat) (text : String) : Option Nat := do
  let n ← Decimal.readInt? text
  if 0 ≤ n ∧ n < bound then return n.toNat else none

/-- Set an option to a value. -/
def set? (o : Options) (name value : String) : Option Options :=
  match name with
  | "agents" => return { o with agents := UInt16.ofNat (← readBelow? 65536 value) }
  | "ticks" => return { o with ticks := UInt32.ofNat (← readBelow? 4294967296 value) }
  | "neighbor-distance" => return { o with neighborDistance := ← Decimal.readSingle? value }
  | "spacing" => return { o with spacing := ← Decimal.readSingle? value }
  | _ => none

/-- What the arguments of a command line ask for. -/
def parse? (arguments : List String) : Option Options := do
  let sorted ← sort {} arguments
  match sorted.paths with
  | [bytecode, debug] =>
    sorted.named.foldlM (fun o (name, value) => o.set? name value) { bytecode, debug }
  | _ => none

end Options

end Swarm
