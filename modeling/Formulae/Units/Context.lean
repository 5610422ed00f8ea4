import Formulae.Names
import Formulae.Units.Dimension
import Formulae.Grammar.Expression

namespace Formulae

abbrev Units := Table Dimension

namespace Units

open Dimension

/-- The names of the powers of ten, long and short. -/
def scales : List (String × String) :=
  [("yotta", "Y"), ("zetta", "Z"), ("exa", "E"), ("peta", "P"), ("tera", "T"), ("giga", "G"),
    ("mega", "M"), ("kilo", "k"), ("hecto", "h"), ("deka", "da"), ("deci", "d"), ("centi", "c"),
    ("milli", "m"), ("micro", "u"), ("nano", "n"), ("pico", "p"), ("femto", "f"), ("atto", "a"),
    ("zepto", "z"), ("yocto", "y")]

/-- The names of the unit of numbers, which cannot be given another meaning. -/
def dimensionlessNames : List String := ["dmnl", "dimensionless", "1"]

/-- What follows the name of a scale: the long one if the name begins with it, else the short. -/
def afterScale (name : String) (scale : String × String) : Option String :=
  let after (start : String) := start.toList.isPrefixOf? name.toList
  ((after scale.1).or (after scale.2)).map String.ofList

/-- The dimension of a unit that is written with a scale. -/
def scaled? (units : Units) (name : String) (scale : String × String) : Option Dimension :=
  match afterScale name scale with
  | some rest => if rest.isEmpty then none else units[rest]?
  | none => none

/-- The dimension of a unit by its name, which may begin with a scale. -/
def find? (units : Units) (name : String) : Option Dimension :=
  if dimensionlessNames.contains name then some dimensionless
  else units[name]?.or (scales.findSome? (units.scaled? name))

def volt : Dimension := (((kilogram.mul (metre.pow 2)).div (second.pow 3)).div ampere)
def newton : Dimension := (kilogram.mul metre).div (second.pow 2)
def joule : Dimension := newton.mul metre
def watt : Dimension := joule.div second
def coulomb : Dimension := ampere.mul second
def ohm : Dimension := volt.div ampere
def farad : Dimension := coulomb.div volt
def weber : Dimension := volt.mul second

/-- The base units of the SI and units derived from them. -/
def siNames : List (List String × Dimension) :=
  [(["metre", "meter", "m"], metre),
    (["kilogram", "kg"], kilogram),
    (["gram", "g"], kilogram),
    (["second", "s"], second),
    (["amp", "ampere", "A"], ampere),
    (["kelvin", "K"], kelvin),
    (["mole", "mol"], mole),
    (["candle", "candela", "cd"], candela),
    (["volt", "V"], volt),
    (["newton", "N"], newton),
    (["joule", "J"], joule),
    (["watt", "W"], watt),
    (["coulomb", "C"], coulomb),
    (["ohm"], ohm),
    (["siemens", "S"], ohm.reciprocal),
    (["farad", "F"], farad),
    (["hertz", "Hz"], second.reciprocal),
    (["pascal", "Pa"], newton.div (metre.pow 2)),
    (["weber", "Wb"], weber),
    (["tesla", "T"], weber.div (metre.pow 2)),
    (["henry", "H"], weber.div ampere),
    (["liter", "litre", "l"], metre.pow 3),
    (["molar", "M"], mole.div (metre.pow 3)),
    (["radian", "rad"], dimensionless)]

def si : Units :=
  .ofList (siNames.flatMap fun (names, d) => names.map fun name => (name, d))

end Units

namespace Expr

def unitExponent : Expr → Except Fault Float
  | number _ x _ => .ok x
  | unary .neg e _ => do return -(← unitExponent e)
  | unary .pos e _ => unitExponent e
  | binary .div l r _ => do
    let x ← unitExponent l
    let y ← unitExponent r
    return x / y
  | e => .error (.located .unitExponent e.span)

/-- The dimension of the unit that an expression writes. -/
def asUnit (units : Units) : Expr → Except Fault Dimension
  | number _ x sp => if x == 1 then .ok .dimensionless else .error (.located .constantInUnits sp)
  | bool _ sp => .error (.located .constantInUnits sp)
  | var name sp =>
    match units.find? name with
    | some d => .ok d
    | none => .error (.located (.unknownUnit name) sp)
  | call _ _ sp => .error (.located .callInUnits sp)
  | unary _ _ sp => .error (.located .signInUnits sp)
  | binary .pow l r _ => do
    let d ← asUnit units l
    return d.pow (← r.unitExponent)
  | binary .mul l r _ => do
    let c ← asUnit units l
    return c.mul (← asUnit units r)
  | binary .div l r _ => do
    let c ← asUnit units l
    return c.div (← asUnit units r)
  | binary _ _ _ sp => .error (.located .operatorInUnits sp)
  | compare _ _ sp => .error (.located .operatorInUnits sp)
  | logical _ _ sp => .error (.located .operatorInUnits sp)

end Expr

def Units.parse (units : Units) (text : String) : Except Fault Dimension := do
  (← Expr.parse .equation text).asUnit units

end Formulae
