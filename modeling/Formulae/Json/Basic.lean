import Formulae.Number.Basic

namespace Formulae

/-- A number as it is written: its digits before and after the point, and its power of ten. -/
structure Numeral where
  negative : Bool
  whole : List Char
  fraction : List Char
  exponent : Int
deriving DecidableEq, Repr

/-- Code points, also those of half a surrogate pair. -/
abbrev CodePoints := List Nat

def codePoints (s : String) : CodePoints := s.toList.map Char.toNat

/-- The character of a code point that is not half of a surrogate pair. -/
def charOf? (n : Nat) : Option Char := if n.isValidChar then some (Char.ofNat n) else none

/-- The text of code points, unless half of a surrogate pair stands alone among them. -/
def textOf? (codes : CodePoints) : Option String := (codes.mapM charOf?).map String.ofList

inductive Json where
  | null
  | bool (b : Bool)
  | number (n : Numeral)
  | string (codes : CodePoints)
  | array (elements : List Json)
  /-- Members in order, also several of one name. -/
  | object (members : List (CodePoints × Json))

namespace Json

/-- The letters that stand for characters behind a backslash. -/
def escapes : List (Char × Char) :=
  [('"', '"'), ('\\', '\\'), ('b', '\x08'), ('f', '\x0c'), ('n', '\n'), ('r', '\r'), ('t', '\t')]

def hex (n : Nat) : List Char :=
  [Nat.digitChar (n / 0x1000 % 16), Nat.digitChar (n / 0x100 % 16), Nat.digitChar (n / 16 % 16),
    Nat.digitChar (n % 16)]

/-- A code point within quotes. -/
def escape (n : Nat) : List Char :=
  match escapes.find? (·.2.toNat == n) with
  | some (letter, _) => ['\\', letter]
  | none =>
    match charOf? n with
    | some c => if n < 0x20 then '\\' :: 'u' :: hex n else [c]
    | none => '\\' :: 'u' :: hex n

def quote (codes : CodePoints) : String :=
  .ofList ('"' :: codes.flatMap escape ++ ['"'])

/-- The digits of a number as they were written, with the power of ten unless it is zero. -/
def numeralText (n : Numeral) : String :=
  let sign := if n.negative then "-" else ""
  let fraction := if n.fraction.isEmpty then "" else "." ++ String.ofList n.fraction
  let power := if n.exponent = 0 then "" else "e" ++ toString n.exponent
  sign ++ String.ofList n.whole ++ fraction ++ power

/-- A line that is indented by two blanks a level. -/
def indented (level : Nat) (text : String) : String :=
  "\n" ++ "".pushn ' ' (2 * level) ++ text

/-- Items between brackets, one to a line; nothing between the brackets if there are no items. -/
def bracketed (level : Nat) (left right : String) (items : List String) : String :=
  if items.isEmpty then left ++ right
  else left ++ ",".intercalate (items.map (indented (level + 1))) ++ indented level right

mutual

/-- The text of a value that is nested in `level` others. -/
def textAt (level : Nat) : Json → String
  | null => "null"
  | bool b => if b then "true" else "false"
  | number n => numeralText n
  | string s => quote s
  | array xs => bracketed level "[" "]" (textsAt (level + 1) xs)
  | object ms => bracketed level "\x7b" "\x7d" (memberTextsAt (level + 1) ms)

def textsAt (level : Nat) : List Json → List String
  | [] => []
  | x :: xs => textAt level x :: textsAt level xs

def memberTextsAt (level : Nat) : List (CodePoints × Json) → List String
  | [] => []
  | (name, x) :: ms => (quote name ++ ": " ++ textAt level x) :: memberTextsAt level ms

end

def text (j : Json) : String := j.textAt 0

end Json

end Formulae

namespace Formulae.Numeral

/-- The number that digits continue, as far as it fits into 64 bits, and the digits left over. -/
def significand : Nat → List Char → Nat × List Char
  | n, [] => (n, [])
  | n, c :: cs =>
    let m := 10 * n + Decimal.natOfDigits [c]
    if m < Nat.pow 2 64 then significand m cs else (n, c :: cs)

/-- The greatest power of ten that is a double. -/
def greatestPower : Nat := 308

def powerOfTen (n : Nat) : Float := Decimal.toFloat ⟨1, n⟩

/-- A double times a power of ten, in at most `steps` steps for powers below the least; there is no
result if it is infinite. -/
def scale : (steps : Nat) → Float → Int → Option Float
  | 0, x, _ => some x
  | steps + 1, x, power =>
    if power.natAbs ≤ greatestPower then
      if 0 ≤ power then
        let y := x * powerOfTen power.toNat
        if y.isInf then none else some y
      else some (x / powerOfTen power.natAbs)
    else if x == 0 then some x
    else if 0 ≤ power then none
    else scale steps (x / powerOfTen greatestPower) (power + greatestPower)

/-- Powers of ten from here on are not added to anything. -/
def powerLimit : Nat := Nat.pow 2 31

/-- The double without its sign. -/
def magnitude? (n : Numeral) : Option Float :=
  let (whole, restOfWhole) := significand 0 n.whole
  let (digits, restOfFraction) := significand whole n.fraction
  let power : Int := restOfWhole.length - (n.fraction.length - restOfFraction.length)
  if n.exponent.natAbs < powerLimit then scale 3 digits.toFloat (power + n.exponent)
  else if digits = 0 ∨ n.exponent < 0 then some 0
  else none

/-- The double that a number stands for, unless it is too great. -/
def toFloat? (n : Numeral) : Option Float :=
  n.magnitude?.map fun x => if n.negative then -x else x

end Formulae.Numeral
