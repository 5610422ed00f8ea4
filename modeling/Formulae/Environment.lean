import Formulae.Fault
import Formulae.Units.Context

namespace Formulae

/-- A variable: its unit, whether it is True or False, whether it keeps its value, whether it has a
single value, and that value if it is known. -/
structure Variable where
  unit : Dimension
  isBool : Bool := false
  constant : Bool := false
  scalar : Bool := false
  value : Option Float := none

namespace Variable

/-- A single value that is known and kept. -/
def ofValue (unit : Dimension) (value : Float) : Variable :=
  { unit, constant := true, scalar := true, value := some value }

def numberOfBool (b : Bool) : Float := if b then 1 else 0

/-- A truth value that is known and kept. -/
def ofBool (b : Bool) : Variable :=
  { ofValue .dimensionless (numberOfBool b) with isBool := true }

/-- A truth value that may change. -/
def flag : Variable := { unit := .dimensionless, isBool := true }

end Variable

/-- How the unit of the result of a function follows from the units of its arguments. -/
inductive UnitRule where
  /-- No argument and no result has a unit. -/
  | dimensionless
  /-- The result has the unit of the first argument. -/
  | preserve
  /-- The unit of the first argument is raised to a power. -/
  | power (exponent : Float)
  /-- All arguments and the result have the same unit. -/
  | sameAsArgs
  | fixed (args : List Dimension) (result : Dimension)
  | custom (rule : List Dimension → Except Fault Dimension)

namespace UnitRule

/-- Refuses the first argument whose unit is not the one expected. Arguments are counted from
`index` on; those with nothing expected of them may have any unit. -/
def check [Closeness] (function : String) :
    (index : Nat) → (args expected : List Dimension) → Except Fault Unit
  | index, arg :: args, want :: expected =>
    if arg.agrees want then check function (index + 1) args expected
    else .error { reason := .argumentUnit index function arg.text want.text }
  | _, _, _ => .ok ()

def apply [Closeness] (rule : UnitRule) (function : String) (args : List Dimension) :
    Except Fault Dimension :=
  let first := args.headD .dimensionless
  match rule with
  | dimensionless => do
    check function 1 args (args.map fun _ => .dimensionless)
    return .dimensionless
  | preserve => .ok first
  | power exponent => .ok (first.pow exponent)
  | sameAsArgs => do
    check function 2 (args.drop 1) ((args.drop 1).map fun _ => first)
    return first
  | fixed expected result => do
    check function 1 args expected
    return result
  | custom rule => rule args

def text : UnitRule → String
  | dimensionless => "Dimensionless"
  | preserve => "Preserve"
  | power exponent => "Power(" ++ Number.text exponent ++ ")"
  | sameAsArgs => "SameAsArgs"
  | fixed args result =>
    "Fixed \x7b args: [" ++ ", ".intercalate (args.map Dimension.recordText) ++ "], result: " ++
      result.recordText ++ " \x7d"
  | custom _ => "Custom(..)"

end UnitRule

/-- A function: the unit of its results, whether they are True or False, how many arguments it
takes, and what it computes. -/
structure Function where
  unitRule : UnitRule
  returnsBool : Bool := false
  arity : Option Nat := none
  implementation : Option (List Float → Float) := none

/-- The variables and functions that are known. -/
structure Environment where
  vars : Table Variable := ∅
  functions : Table Function := ∅

end Formulae
