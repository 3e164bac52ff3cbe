import Swarm.Machine.State

/-!
# Values of the host

Values are copied between a script and its host, so neither ever holds on to
what belongs to the other. Numbers and strings have a counterpart on both
sides; truths become integers, and what has no counterpart is left out.
-/

namespace Swarm

/-- What functions of the host compute with. -/
inductive HostValue where
  | none
  | bool (b : Bool)
  | int (n : Int64)
  | float (x : Float)
  | bytes (bs : Bytes)
  | text (s : String)
  | list (vs : List HostValue)

namespace HostValue

/-- The word for the type of a value. -/
def typeName : HostValue → String
  | .none => "none"
  | .bool _ => "bool"
  | .int _ => "int"
  | .float _ => "float"
  | .bytes _ => "bytes"
  | .text _ => "text"
  | .list _ => "list"

/-- Whether a value has no counterpart in scripts although it holds something. -/
def isForeign : HostValue → Bool
  | .text _ | .list _ => true
  | _ => false

end HostValue

namespace Store

variable {ν : Type}

/-- A value of a script as the host sees it. -/
def toHost (s : Store ν) : Value → HostValue
  | .int n => .int n
  | .float x => .float x
  | .str id => .bytes (s.strings.get id)
  | .nil | .table _ | .closure _ => .none

/-- A value of the host as the script sees it. -/
def ofHost (s : Store ν) : HostValue → Store ν × Value
  | .int n => (s, .int n)
  | .float x => (s, .float x)
  | .bytes bs => s.intern bs
  | .bool b => (s, .ofBool b)
  | .none | .text _ | .list _ => (s, .nil)

end Store

end Swarm
