import Formulae.Number.Basic

namespace Formulae.Number

open Float.Model (UnpackedFloat)

/-- The nonnegative fraction `num / den`. -/
structure Ratio where
  num : Nat
  den : Nat

namespace Ratio

/-- `mantissa * 2 ^ exponent` -/
def ofBinary (mantissa : Nat) (exponent : Int) : Ratio :=
  if 0 ≤ exponent then ⟨mantissa <<< exponent.toNat, 1⟩ else ⟨mantissa, Nat.pow 2 exponent.natAbs⟩

/-- The fraction in units of `10 ^ power`. -/
def inUnits (r : Ratio) (power : Int) : Ratio :=
  if 0 ≤ power then ⟨r.num, r.den * Nat.pow 10 power.toNat⟩
  else ⟨r.num * Nat.pow 10 power.natAbs, r.den⟩

/-- The power of ten of the leading digit of a positive fraction. -/
def leadingPower (r : Ratio) : Int :=
  let guess : Int :=
    (Decimal.digitsOfNat r.num).length - (Decimal.digitsOfNat r.den).length
  let scaled := r.inUnits guess
  if scaled.den ≤ scaled.num then guess else guess - 1

/-- The multiples of `10 ^ power` next to the fraction, the closer one first. -/
def neighbours (r : Ratio) (power : Int) : List Decimal :=
  let scaled := r.inUnits power
  let below := scaled.num / scaled.den
  let rest := scaled.num % scaled.den
  if rest = 0 then [⟨below, power⟩]
  else if 2 * rest < scaled.den then [⟨below, power⟩, ⟨below + 1, power⟩]
  else [⟨below + 1, power⟩, ⟨below, power⟩]

end Ratio

/-- Trailing zeros go to the power of ten; `fuel` bounds their number. -/
def trimZeros : Nat → Decimal → Decimal
  | 0, d => d
  | fuel + 1, d =>
    if d.digits ≠ 0 ∧ d.digits % 10 = 0 then trimZeros fuel ⟨d.digits / 10, d.exponent + 1⟩ else d

/-- All digits of `mantissa * 2 ^ exponent`. -/
def exact (mantissa : Nat) (exponent : Int) : Decimal :=
  if 0 ≤ exponent then ⟨mantissa <<< exponent.toNat, 0⟩
  else ⟨mantissa * Nat.pow 5 exponent.natAbs, exponent⟩

/-- The first grid, from the coarsest power of ten on, with a neighbour that reads back. -/
def shortestFrom (x : Float) (r : Ratio) : Nat → Int → Option Decimal
  | 0, _ => none
  | grids + 1, power =>
    match (r.neighbours power).find? fun d => d.toFloat == x with
    | some d => some d
    | none => shortestFrom x r grids (power - 1)

/-- The shortest decimal for the positive double `x = mantissa * 2 ^ exponent`. -/
def shortest (x : Float) (mantissa : Nat) (exponent : Int) : Decimal :=
  let r := Ratio.ofBinary mantissa exponent
  match shortestFrom x r 17 r.leadingPower with
  | some d => trimZeros 1 d
  | none => exact mantissa exponent

def signText : UnpackedFloat.Sign → List Char
  | .negative => ['-']
  | .positive => []

/-- The text of a double given the texts of zero and of a positive decimal. -/
def textWith (zero : List Char) (write : Decimal → List Char) (x : Float) : String :=
  String.ofList <|
    match x.toModel.unpack with
    | .notANumber => ['N', 'a', 'N']
    | .infinity sign => signText sign ++ ['i', 'n', 'f']
    | .zero sign => signText sign ++ zero
    | .finite sign mantissa exponent _ =>
      signText sign ++ write (shortest x.abs mantissa exponent)

/-- Always positional, with a point only before a fraction. -/
def text : Float → String :=
  textWith ['0'] Decimal.positional

/-- Positional from `10 ^ -4` up to `10 ^ 16`, then always with a point; else with a power of ten. -/
def pointedText : Float → String :=
  textWith ['0', '.', '0'] fun d =>
    let power := d.exponent + ((Decimal.digitsOfNat d.digits).length - 1 : Nat)
    if -4 ≤ power ∧ power < 16 then
      if 0 ≤ d.exponent then d.positional ++ ['.', '0'] else d.positional
    else d.scientific

end Formulae.Number
