import Formulae.Number.Shortest

namespace Formulae

/-- When two doubles are taken for the same: if they are close to one another, by their difference or
by the number of steps from one double to the next. -/
class Closeness where
  near : (difference : Float) → (steps : Nat) → (x y : Float) → Bool
  near_of_beq : ∀ difference steps x y, (x == y) = true → near difference steps x y = true

/-- The exponents of metre, kilogram, second, ampere, kelvin, mole and candela. -/
structure Dimension where
  length : Float
  mass : Float
  time : Float
  current : Float
  temperature : Float
  amount : Float
  luminosity : Float

namespace Dimension

def symbols : List String := ["m", "kg", "s", "A", "K", "mol", "cd"]

def exponents (d : Dimension) : List Float :=
  [d.length, d.mass, d.time, d.current, d.temperature, d.amount, d.luminosity]

def map (f : Float → Float) (d : Dimension) : Dimension :=
  ⟨f d.length, f d.mass, f d.time, f d.current, f d.temperature, f d.amount, f d.luminosity⟩

def zipWith (f : Float → Float → Float) (c d : Dimension) : Dimension :=
  ⟨f c.length d.length, f c.mass d.mass, f c.time d.time, f c.current d.current,
    f c.temperature d.temperature, f c.amount d.amount, f c.luminosity d.luminosity⟩

def dimensionless : Dimension := ⟨0, 0, 0, 0, 0, 0, 0⟩

instance : Inhabited Dimension := ⟨dimensionless⟩

def metre : Dimension := { dimensionless with length := 1 }
def kilogram : Dimension := { dimensionless with mass := 1 }
def second : Dimension := { dimensionless with time := 1 }
def ampere : Dimension := { dimensionless with current := 1 }
def kelvin : Dimension := { dimensionless with temperature := 1 }
def mole : Dimension := { dimensionless with amount := 1 }
def candela : Dimension := { dimensionless with luminosity := 1 }

def pow (d : Dimension) (exponent : Float) : Dimension := d.map (· * exponent)

def reciprocal (d : Dimension) : Dimension := d.pow (-1)

def mul (c d : Dimension) : Dimension := zipWith (· + ·) c d

def div (c d : Dimension) : Dimension := c.mul d.reciprocal

def product (ds : List Dimension) : Dimension := ds.foldl mul dimensionless

/-- The difference up to which exponents are the same. -/
def tolerance : Float := 1e-9

/-- The steps from one double to the next up to which exponents are the same. -/
def toleratedSteps : Nat := 4

section Compared

variable [Closeness]

/-- Are all exponents the same, up to the tolerance? -/
def agrees (c d : Dimension) : Bool :=
  (c.exponents.zip d.exponents).all fun (x, y) => Closeness.near tolerance toleratedSteps x y

def isDimensionless (d : Dimension) : Bool := d.agrees dimensionless

/-- Is an exponent written as the given one? -/
def isNearly (x y : Float) : Bool := Closeness.near tolerance 0 x y

/-- An exponent, as an integer if it is near one. -/
def exponentText (x : Float) : String :=
  if isNearly x x.round then toString x.round.toInt64 else Number.text x

def powerText (symbol : String) (x : Float) : String :=
  if isNearly x 1 then symbol else symbol ++ "^" ++ exponentText x

/-- The base units with the exponents that satisfy a condition and are not nearly zero. -/
def powersThat (condition : Float → Bool) (d : Dimension) : List (String × Float) :=
  (symbols.zip d.exponents).filter fun (_, x) => !isNearly x 0 && condition x

/-- The positive powers as a product, divided by the base units with negative exponents one after
the other. -/
def text (d : Dimension) : String :=
  if d.isDimensionless then "dmnl"
  else
    let above := d.powersThat (0 < ·)
    let below := d.powersThat (· < 0)
    let top :=
      if above.isEmpty && !below.isEmpty then "1"
      else "*".intercalate (above.map fun (s, x) => powerText s x)
    top ++ String.join (below.map fun (s, x) => "/" ++ powerText s (-x))

end Compared

/-- The exponents written out as a record, each with a point. -/
def recordText (d : Dimension) : String :=
  "Dimension \x7b dims: [" ++ ", ".intercalate (d.exponents.map Number.pointedText) ++ "] \x7d"

end Dimension

end Formulae
