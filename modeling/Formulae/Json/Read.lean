import Formulae.Json.Basic
import Formulae.Number.Basic

namespace Formulae.Json

/-- What is read, and the text behind it. -/
abbrev Reader (α : Type) := List Char → Option (α × List Char)

def skipBlanks (cs : List Char) : List Char :=
  cs.dropWhile fun c => c == ' ' || c == '\t' || c == '\n' || c == '\r'

def ofHex? (ds : List Char) : Option Nat :=
  ds.foldlM (fun n c =>
    if c.isDigit then some (16 * n + (c.toNat - '0'.toNat))
    else if 'a' ≤ c ∧ c ≤ 'f' then some (16 * n + (c.toNat - 'a'.toNat + 10))
    else if 'A' ≤ c ∧ c ≤ 'F' then some (16 * n + (c.toNat - 'A'.toNat + 10))
    else none) 0

def escaped? (c : Char) : Option Char := (('/', '/') :: escapes).lookup c

/-- Is the number the first, or the second, half of a surrogate pair? -/
def isLead (n : Nat) : Bool := 0xD800 ≤ n && n < 0xDC00

def isTrail (n : Nat) : Bool := 0xDC00 ≤ n && n < 0xE000

/-- The code points that halves of surrogate pairs make where both stand side by side. -/
def joinPairs : CodePoints → CodePoints
  | [] => []
  | n :: codes =>
    match joinPairs codes with
    | m :: rest =>
      if isLead n && isTrail m then (0x10000 + (n - 0xD800) * 0x400 + (m - 0xDC00)) :: rest
      else n :: m :: rest
    | [] => [n]

/-- The code points of a string up to the closing quote, with halves of surrogate pairs apart. -/
def units : Reader CodePoints
  | [] => none
  | '"' :: cs => some ([], cs)
  | '\\' :: 'u' :: a :: b :: c :: d :: cs =>
    match ofHex? [a, b, c, d] with
    | none => none
    | some n => (units cs).map fun (codes, rest) => (n :: codes, rest)
  | '\\' :: c :: cs =>
    match escaped? c with
    | none => none
    | some x => (units cs).map fun (codes, rest) => (x.toNat :: codes, rest)
  | c :: cs =>
    if c.toNat < 0x20 then none
    else (units cs).map fun (codes, rest) => (c.toNat :: codes, rest)

def quoted (cs : List Char) : Option (CodePoints × List Char) :=
  (units cs).map fun (codes, rest) => (joinPairs codes, rest)

def someDigits (cs : List Char) : Option (List Char × List Char) :=
  match cs.takeWhile Char.isDigit with
  | [] => none
  | ds => some (ds, cs.drop ds.length)

/-- Digits that do not begin with a zero, or a zero alone. -/
def wholePart (cs : List Char) : Option (List Char × List Char) :=
  (someDigits cs).filter fun (ds, _) => ds.length = 1 || ds.head? != some '0'

/-- A point and digits, or nothing. -/
def fractionPart : Reader (List Char)
  | '.' :: cs => someDigits cs
  | cs => some ([], cs)

/-- The letter `e`, a sign and digits, or nothing. -/
def exponentPart : Reader Int
  | [] => some (0, [])
  | c :: cs =>
    if c == 'e' || c == 'E' then
      let (negative, cs) := match cs with
        | '-' :: cs => (true, cs)
        | '+' :: cs => (false, cs)
        | cs => (false, cs)
      (someDigits cs).map fun (ds, rest) =>
        let n : Int := Decimal.natOfDigits ds
        (if negative then -n else n, rest)
    else some (0, c :: cs)

/-- A number, with a sign only if it is negative. -/
def numeral (cs : List Char) : Option (Numeral × List Char) := do
  let (negative, cs) := match cs with
    | '-' :: cs => (true, cs)
    | cs => (false, cs)
  let (whole, cs) ← wholePart cs
  let (fraction, cs) ← fractionPart cs
  let (exponent, cs) ← exponentPart cs
  return (⟨negative, whole, fraction, exponent⟩, cs)

mutual

/-- A value, with white space before it. -/
def value : (bound : Nat) → Reader Json
  | 0, _ => none
  | bound + 1, cs =>
    match skipBlanks cs with
    | 'n' :: 'u' :: 'l' :: 'l' :: cs => some (null, cs)
    | 't' :: 'r' :: 'u' :: 'e' :: cs => some (bool true, cs)
    | 'f' :: 'a' :: 'l' :: 's' :: 'e' :: cs => some (bool false, cs)
    | '"' :: cs => (quoted cs).map fun (codes, rest) => (string codes, rest)
    | '[' :: cs =>
      match skipBlanks cs with
      | ']' :: cs => some (array [], cs)
      | cs => (elements bound cs).map fun (xs, rest) => (array xs, rest)
    | '\x7b' :: cs =>
      match skipBlanks cs with
      | '\x7d' :: cs => some (object [], cs)
      | cs => (members bound cs).map fun (ms, rest) => (object ms, rest)
    | cs => (numeral cs).map fun (n, rest) => (number n, rest)

/-- Values with commas between them, up to the closing bracket. -/
def elements : (bound : Nat) → Reader (List Json)
  | 0, _ => none
  | bound + 1, cs => do
    let (x, cs) ← value bound cs
    match skipBlanks cs with
    | ',' :: cs => do
      let (xs, rest) ← elements bound cs
      return (x :: xs, rest)
    | ']' :: cs => return ([x], cs)
    | _ => none

/-- Names and values with commas between them, up to the closing brace. -/
def members : (bound : Nat) → Reader (List (CodePoints × Json))
  | 0, _ => none
  | bound + 1, cs =>
    match skipBlanks cs with
    | '"' :: cs => do
      let (name, cs) ← quoted cs
      match skipBlanks cs with
      | ':' :: cs => do
        let (x, cs) ← value bound cs
        match skipBlanks cs with
        | ',' :: cs => do
          let (ms, rest) ← members bound cs
          return ((name, x) :: ms, rest)
        | '\x7d' :: cs => return ([(name, x)], cs)
        | _ => none
      | _ => none
    | _ => none

end

/-- The value that a text writes, with nothing but white space around it. -/
def read? (text : String) : Option Json :=
  let cs := text.toList
  match value (cs.length + 1) cs with
  | some (j, rest) => if skipBlanks rest = [] then some j else none
  | none => none

end Formulae.Json
