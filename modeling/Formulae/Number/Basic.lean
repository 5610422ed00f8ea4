
namespace Formulae

/-- The number `digits * 10 ^ exponent`. -/
structure Decimal where
  digits : Nat
  exponent : Int
deriving DecidableEq, Repr

namespace Decimal

/-- The number that a string of ASCII digits writes. -/
def natOfDigits (cs : List Char) : Nat :=
  cs.foldl (fun n c => 10 * n + (c.toNat - '0'.toNat)) 0

/-- The digits of a number, without leading zeros. -/
def digitsOfNat (n : Nat) : List Char :=
  Nat.toDigits 10 n

/-- The power of ten from which on decimals are infinite as doubles, and below whose inverse they
are zero. -/
def reach : Nat := 400

/-- The double closest to the decimal, ties going to the even mantissa. -/
def toFloat (d : Decimal) : Float :=
  let size : Int := d.exponent + (digitsOfNat d.digits).length
  if d.digits = 0 ∨ size < -reach then 0
  else if reach < size then 1.0 / 0.0
  else Float.ofScientific d.digits (d.exponent < 0) d.exponent.natAbs

/-- Reads digits only, at least one. -/
def readNat? (cs : List Char) : Option Nat :=
  if cs ≠ [] ∧ cs.all Char.isDigit then some (natOfDigits cs) else none

/-- Reads what follows the mantissa: nothing, or `e` and a power of ten. -/
def readExponent? : List Char → Option Int
  | [] => some 0
  | c :: cs =>
    if c == 'e' || c == 'E' then
      match cs with
      | '-' :: ds => (readNat? ds).map fun n => -Int.ofNat n
      | '+' :: ds => (readNat? ds).map Int.ofNat
      | ds => (readNat? ds).map Int.ofNat
    else none

/-- Reads an unsigned decimal: digits before or after a point, and a power of ten. -/
def read? (cs : List Char) : Option Decimal :=
  let whole := cs.takeWhile Char.isDigit
  let rest := cs.dropWhile Char.isDigit
  let (fraction, rest) :=
    match rest with
    | '.' :: ds => (ds.takeWhile Char.isDigit, ds.dropWhile Char.isDigit)
    | ds => ([], ds)
  if whole = [] ∧ fraction = [] then none
  else (readExponent? rest).map fun e => ⟨natOfDigits (whole ++ fraction), e - fraction.length⟩

/-- Writes all digits and no power of ten; there is a point only if there is a fraction. -/
def positional (d : Decimal) : List Char :=
  let ds := digitsOfNat d.digits
  if 0 ≤ d.exponent then ds ++ List.replicate d.exponent.toNat '0'
  else
    let places := d.exponent.natAbs
    if places < ds.length then
      ds.take (ds.length - places) ++ '.' :: ds.drop (ds.length - places)
    else '0' :: '.' :: List.replicate (places - ds.length) '0' ++ ds

/-- Writes one digit before the point and the power of ten after an `e`. -/
def scientific (d : Decimal) : List Char :=
  let ds := digitsOfNat d.digits
  let power : Int := d.exponent + (ds.length - 1 : Nat)
  let mantissa := if ds.length ≤ 1 then ds else ds.take 1 ++ '.' :: ds.drop 1
  mantissa ++ 'e' :: (toString power).toList

end Decimal

end Formulae

namespace Formulae.Number

open Float.Model (UnpackedFloat)

/-- `mantissa * 2 ^ exponent`, if that is a natural number. -/
def natural? (mantissa : Nat) (exponent : Int) : Option Nat :=
  if 0 ≤ exponent then some (mantissa <<< exponent.toNat)
  else
    let unit := Nat.pow 2 exponent.natAbs
    if mantissa % unit = 0 then some (mantissa / unit) else none

/-- The integer that a double equals, if there is one of less than sixteen digits. -/
def integer? (x : Float) : Option Int :=
  match x.toModel.unpack with
  | .zero _ => some 0
  | .finite sign mantissa exponent _ =>
    match natural? mantissa exponent with
    | some n => if n < Nat.pow 10 15 then some (sign.apply n) else none
    | none => none
  | _ => none

/-- Toward zero. -/
def truncate (x : Float) : Float :=
  if x < 0 then x.ceil else x.floor

/-- What is left of `x` after taking away `y` as often as it fits, with the sign of `x`. -/
def remainder (x y : Float) : Float :=
  match x.toModel.unpack, y.toModel.unpack with
  | .notANumber, _ | _, .notANumber | .infinity _, _ | _, .zero _ => 0.0 / 0.0
  | .zero _, _ | _, .infinity _ => x
  | .finite sign m e _, .finite _ n f _ =>
    let low := min e f
    let rest := (m <<< (e - low).toNat) % (n <<< (f - low).toNat)
    let whole : UnpackedFloat :=
      if rest = 0 then .zero sign else .round .binary64 sign rest low
    ⟨.pack whole⟩

end Formulae.Number
