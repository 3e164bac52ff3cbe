import Swarm.Machine.StringTable

/-!
# Values

Scripts compute with integers, floating-point numbers, strings, tables and
closures. Strings and tables are values by reference: a value holds the id of
the string or of the table. Integers and strings can be keys of tables; keys
are ordered, all integers by value before all strings by id.
-/

namespace Swarm

/-- A function that a script can call. -/
inductive Closure where
  /-- The function of the script that starts at an address. -/
  | script (address : UInt32)
  /-- The native function with a number. -/
  | native (id : Nat)
  deriving DecidableEq, Repr

/-- The place of a table in the heap. -/
structure TableId where
  index : Nat
  deriving DecidableEq, Repr

instance : Ord TableId := ⟨compareOn TableId.index⟩

instance : Std.TransOrd TableId := inferInstanceAs (Std.TransCmp (compareOn TableId.index))

instance : Std.LawfulEqOrd TableId where
  eq_of_compare {a b} h := by
    have hindex : compare a.index b.index = .eq := h
    cases a
    cases b
    simpa using hindex

/-- What scripts compute with. -/
inductive Value where
  /-- The empty value. -/
  | nil
  | int (n : Int64)
  | float (x : Float)
  | str (id : StringId)
  | table (id : TableId)
  | closure (c : Closure)

/-- The kinds of values. -/
inductive Kind where
  | nil | int | float | string | table | closure
  deriving DecidableEq, Repr

/-- The word for a kind of values. -/
def Kind.name : Kind → String
  | .nil => "nil"
  | .int => "int"
  | .float => "float"
  | .string => "string"
  | .table => "table"
  | .closure => "closure"

namespace Value

/-- The kind of a value. -/
def kind : Value → Kind
  | .nil => .nil
  | .int _ => .int
  | .float _ => .float
  | .str _ => .string
  | .table _ => .table
  | .closure _ => .closure

/-- Whether a value is the empty one. -/
def isNil : Value → Bool
  | .nil => true
  | _ => false

/-- The empty value and the integer zero are false, everything else is true. -/
def isTruthy : Value → Bool
  | .nil => false
  | .int n => n != 0
  | _ => true

/-- Equality within a kind; tables are equal only to themselves. -/
def same : Value → Value → Bool
  | .nil, .nil => true
  | .int a, .int b => a == b
  | .float a, .float b => a == b
  | .str a, .str b => a == b
  | .table a, .table b => a == b
  | .closure a, .closure b => a == b
  | _, _ => false

/-- Equality as scripts see it: an integer and a floating-point number are compared as
floating-point numbers. -/
def looselyEquals : Value → Value → Bool
  | .int a, .float b => a.toFloat == b
  | .float a, .int b => a == b.toFloat
  | a, b => a.same b

/-- The value of a truth. -/
def ofBool (b : Bool) : Value := .int (if b then 1 else 0)

end Value

/-- A value that can be the key of a table. -/
inductive TableKey where
  | int (n : Int64)
  | str (id : StringId)
  deriving DecidableEq, Repr

namespace TableKey

/-- All integers come before all strings. -/
def cmp : TableKey → TableKey → Ordering
  | .int a, .int b => compare a b
  | .int _, .str _ => .lt
  | .str _, .int _ => .gt
  | .str a, .str b => compare a b

instance : Ord TableKey := ⟨cmp⟩

instance : Std.TransOrd TableKey where
  eq_swap {a b} :=
    match a, b with
    | .int a, .int b => (Std.OrientedCmp.eq_swap : compare a b = (compare b a).swap)
    | .int _, .str _ => rfl
    | .str _, .int _ => rfl
    | .str a, .str b => (Std.OrientedCmp.eq_swap : compare a b = (compare b a).swap)
  isLE_trans {a b c} hab hbc :=
    match a, b, c with
    | .int a, .int b, .int c =>
      (Std.TransCmp.isLE_trans (hab : (compare a b).isLE) (hbc : (compare b c).isLE) :
        (compare a c).isLE)
    | .str a, .str b, .str c =>
      (Std.TransCmp.isLE_trans (hab : (compare a b).isLE) (hbc : (compare b c).isLE) :
        (compare a c).isLE)
    | .int _, _, .str _ => rfl
    | .int _, .str _, .int _ => nomatch hbc
    | .str _, .int _, _ => nomatch hab
    | .str _, .str _, .int _ => nomatch hbc

instance : Std.LawfulEqOrd TableKey where
  eq_of_compare {a b} h :=
    match a, b with
    | .int a, .int b =>
      congrArg TableKey.int (Std.compare_eq_iff_eq.1 (show compare a b = .eq from h))
    | .str a, .str b =>
      congrArg TableKey.str (Std.compare_eq_iff_eq.1 (show compare a b = .eq from h))

/-- The key that a value can be. -/
def ofValue? : Value → Option TableKey
  | .int n => some (.int n)
  | .str id => some (.str id)
  | _ => none

/-- A key as a value. -/
def toValue : TableKey → Value
  | .int n => .int n
  | .str id => .str id

end TableKey

end Swarm
