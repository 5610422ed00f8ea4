import Formulae.Environment
import Formulae.Number.Basic

namespace Formulae

/-- Two numbers drawn at random, each from zero up to but not one. -/
class Draws where
  first : Float
  second : Float
  first_range : 0 ≤ first ∧ first < 1
  second_range : 0 ≤ second ∧ second < 1

/-- Two draws from the middle. -/
@[reducible] def Draws.middle : Draws where
  first := 0.5
  second := 0.5
  first_range := by decide +kernel
  second_range := by decide +kernel

namespace Builtins

def argument (args : List Float) (index : Nat) : Float := args.getD index (0.0 / 0.0)

/-- The greater of two numbers, or the only one of them that is a number. -/
def greater (x y : Float) : Float := if x.isNaN || x < y then y else x

/-- The lesser of two numbers, or the only one of them that is a number. -/
def lesser (x y : Float) : Float := if x.isNaN || y < x then y else x

/-- The first argument, raised to the second and then lowered to the third. -/
def clip (args : List Float) : Float :=
  lesser (greater (argument args 0) (argument args 1)) (argument args 2)

def ofOne (unitRule : UnitRule) (f : Float → Float) : Function :=
  { unitRule, arity := some 1, implementation := some fun args => f (argument args 0) }

/-- A number drawn at random. The draws are given, so that the value of an expression is determined
by the expression and by them. -/
def random (x : Float) : Function :=
  { unitRule := .dimensionless, arity := some 0, implementation := some fun _ => x }

/-- Half the circumference of the unit circle. -/
def pi : Float := 3.141592653589793

/-- A draw from the normal distribution, made by the Box-Muller transform of two draws. -/
def normal [Draws] : Float :=
  (-2 * (1 - Draws.first).log).sqrt * (2 * pi * Draws.second).cos

/-- Functions of numbers without a unit. -/
def ofNumbers : List (String × (Float → Float)) :=
  [("exp", Float.exp), ("log", Float.log), ("log10", Float.log10), ("sin", Float.sin),
    ("cos", Float.cos), ("tan", Float.tan), ("sinh", Float.sinh), ("cosh", Float.cosh),
    ("tanh", Float.tanh), ("arcsin", Float.asin), ("arccos", Float.acos), ("arctan", Float.atan),
    ("int", Number.truncate)]

/-- Functions that keep the unit of their argument. -/
def ofQuantities : List (String × (Float → Float)) :=
  [("abs", Float.abs), ("ceil", Float.ceil), ("floor", Float.floor)]

def entries [Draws] : List (String × Function) :=
  ofNumbers.map (fun (name, f) => (name, ofOne .dimensionless f)) ++
    ofQuantities.map (fun (name, f) => (name, ofOne .preserve f)) ++
    [("sqrt", ofOne (.power 0.5) Float.sqrt),
      ("clip", { unitRule := .sameAsArgs, arity := some 3, implementation := some clip }),
      ("rand", random Draws.first),
      ("randn", random normal)]

def functions [Draws] : Table Function := .ofList entries

end Builtins

/-- No variables, and the functions that every expression may call. -/
def Environment.builtin [Draws] : Environment := { functions := Builtins.functions }

end Formulae
