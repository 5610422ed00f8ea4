import Formulae.Symbolic.Operations

namespace Formulae.Symbolic

/-- Whole numbers of less than sixteen digits have no sign of zero. -/
def numberText (x : Float) : String :=
  match Number.integer? x with
  | some n => toString n
  | none => Number.text x

/-- How tightly the outermost operator of the text binds; tighter is higher. -/
def precedence : Symbolic → Nat
  | logical op _ => op.precedence
  | negation _ => 3
  | relation _ _ _ => 4
  | sum _ => 5
  | product _ | remainder _ _ => 6
  | power _ e => if e.isNegative then 6 else if e.isValue 0.5 then 9 else 8
  | number x => if x < 0 then 7 else 9
  | truth _ | symbol _ | call _ _ => 9

def enclose (wanted : Bool) (text : String) : String :=
  if wanted then "(" ++ text ++ ")" else text

/-- Does the text of a term begin with a minus sign that a difference can take? -/
def isSubtracted : Symbolic → Bool
  | product (c :: _) => c.isNegative
  | x => x.isNegative

/-- The coefficient of a product, which is one if none is written, and the other factors. -/
def coefficientOf : List Symbolic → Float × List Symbolic
  | number c :: xs => (c, xs)
  | xs => (1, xs)

/-- The factor that a quotient is divided by instead of being multiplied with a negative power. -/
def divisor? : Symbolic → Option Symbolic
  | power b (number n) => if n < 0 then some (pow b (number (-n))) else none
  | _ => none

/-- A factor of a product is in parentheses also if it is a quotient or a remainder. -/
def factorText (x : Symbolic) (text : String) : String := enclose (x.precedence ≤ 6) text

/-- The text of a product given the texts of its factors and divisors. -/
def productText (coefficient : Float) (factors divisors : List String) : String :=
  let sign := if coefficient < 0 then "-" else ""
  let factors :=
    if coefficient.abs != 1 || factors.isEmpty then numberText coefficient.abs :: factors
    else factors
  let below := match divisors with
    | [] => ""
    | [d] => "/" ++ d
    | ds => "/(" ++ "*".intercalate ds ++ ")"
  sign ++ "*".intercalate factors ++ below

/-- The text of a sum of the given terms. -/
def sumText? (write : Symbolic → Option String) : List Symbolic → Option String
  | [] => some ""
  | x :: xs => do
    let first ← write x
    let rest ← xs.mapM fun y =>
      if y.isSubtracted then do
        let z := neg y
        return " - " ++ enclose (z.precedence ≤ 5) (← write z)
      else do return " + " ++ enclose (y.precedence ≤ 5) (← write y)
    return first ++ String.join rest

/-- The text of a product of the given factors. -/
def quotientText? (write : Symbolic → Option String) (xs : List Symbolic) : Option String := do
  let (coefficient, xs) := coefficientOf xs
  let above ← (xs.filter fun x => x.divisor?.isNone).mapM fun x => do
    return factorText x (← write x)
  let below ← (xs.filterMap divisor?).mapM fun x => do return factorText x (← write x)
  return productText coefficient above below

def operandText? (write : Symbolic → Option String) (wanted : Nat → Bool) (x : Symbolic) :
    Option String := do
  return enclose (wanted x.precedence) (← write x)

/-- The text, if `depth` bounds the nesting of the expressions written. -/
def text? : (depth : Nat) → Symbolic → Option String
  | 0, _ => none
  | depth + 1, s =>
    match s with
    | number x => some (numberText x)
    | truth b => some (if b then "True" else "False")
    | symbol x => some x
    | sum xs => sumText? (text? depth) (others xs ++ xs.filter isNumber)
    | product xs => quotientText? (text? depth) xs
    | power b e =>
      if e.isValue 0.5 then do return "sqrt(" ++ (← text? depth b) ++ ")"
      else if e.isNegative then quotientText? (text? depth) [power b e]
      else do
        return (← operandText? (text? depth) (· ≤ 8) b) ++ "**" ++
          (← operandText? (text? depth) (· < 7) e)
    | remainder x y => do
      return (← operandText? (text? depth) (· < 6) x) ++ " % " ++
        (← operandText? (text? depth) (· ≤ 6) y)
    | call f xs => do return f ++ "(" ++ ", ".intercalate (← xs.mapM (text? depth)) ++ ")"
    | relation op x y => do
      return (← operandText? (text? depth) (· ≤ 4) x) ++ " " ++ op.symbol ++ " " ++
        (← operandText? (text? depth) (· ≤ 4) y)
    | negation x => do return "not " ++ (← operandText? (text? depth) (· < 3) x)
    | logical op xs => do
      return (" " ++ op.word ++ " ").intercalate
        (← xs.mapM (operandText? (text? depth) (· ≤ op.precedence)))

def text (s : Symbolic) : String :=
  (text? (depthFor s.size) s).getD s.constructorText

end Formulae.Symbolic
