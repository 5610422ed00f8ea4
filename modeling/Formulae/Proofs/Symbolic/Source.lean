import Formulae.Proofs.Grammar.Written
import Formulae.Proofs.Symbolic.Numbers

namespace Formulae.Symbolic
open Grammar
open Token (IsName)
set_option autoImplicit true

/-- The terms of a sum in the order in which they are written, constants last. -/
def inOrder (xs : List Symbolic) : List Symbolic := others xs ++ xs.filter isNumber

/-- What is written of a term behind its sign. -/
def signless (y : Symbolic) : Symbolic := if y.isSubtracted then neg y else y

def signOf (y : Symbolic) : BinaryOp := if y.isSubtracted then .sub else .add

/-- The absolute value of a number as a literal. -/
def literal (x : Float) : Expr :=
  .number (numberText x.abs)
    (((Decimal.read? (numberText x.abs).toList).map Decimal.toFloat).getD x.abs) .zero

def signed (x : Float) (e : Expr) : Expr := if x < 0 then .unary .neg e .zero else e

def productOfAll (e : Expr) (es : List Expr) : Expr :=
  es.foldl (fun l r => .binary .mul l r .zero) e

/-- The expression for a product, given those for its factors and for what it is divided by. -/
def quotientOf (coefficient : Float) (factors divisors : List Expr) : Expr :=
  let factors :=
    if coefficient.abs != 1 || factors.isEmpty then literal coefficient :: factors else factors
  let above := match factors with
    | [] => literal coefficient
    | e :: es => productOfAll (signed coefficient e) es
  match divisors with
  | [] => above
  | d :: ds => .binary .div above (productOfAll d ds) .zero

/-- The factors of a product that are not divided by, and those that are. -/
def factorsAbove (xs : List Symbolic) : List Symbolic :=
  (coefficientOf xs).2.filter fun x => x.divisor?.isNone

def factorsBelow (xs : List Symbolic) : List Symbolic := (coefficientOf xs).2.filterMap divisor?

def quotientSource (source : Symbolic → Expr) (xs : List Symbolic) : Expr :=
  quotientOf (coefficientOf xs).1 ((factorsAbove xs).map source) ((factorsBelow xs).map source)

def sumSource (source : Symbolic → Expr) : List Symbolic → Expr
  | [] => literal 0
  | x :: xs => xs.foldl (fun e y => .binary y.signOf e (source y.signless) .zero) (source x)

/-- The expression for a tree, given those for its parts. -/
def nodeSource (source : Symbolic → Expr) : Symbolic → Expr
  | number x => signed x (literal x)
  | truth b => .bool b .zero
  | symbol x => .var x .zero
  | sum xs => sumSource source (inOrder xs)
  | product xs => quotientSource source xs
  | power b e =>
    if e.isValue 0.5 then .call "sqrt" [source b] .zero
    else if e.isNegative then quotientSource source [power b e]
    else .binary .pow (source b) (source e) .zero
  | remainder x y => .binary .mod (source x) (source y) .zero
  | call f xs => .call f (xs.map source) .zero
  | relation op x y => .compare (source x) [(op, source y)] .zero
  | negation x => .unary .not (source x) .zero
  | logical op xs => .logical op (xs.map source) .zero

/-- The expression, if `depth` bounds the nesting of the trees written. -/
def sourceWithin : (depth : Nat) → Symbolic → Expr
  | 0, _ => literal 0
  | depth + 1, s => nodeSource (sourceWithin depth) s

/-- The expression that the text is written for. -/
def source (s : Symbolic) : Expr := sourceWithin (depthFor s.size) s

def sumParts : List Symbolic → List Symbolic
  | [] => []
  | x :: xs => x :: xs.map signless

def quotientParts (xs : List Symbolic) : List Symbolic := factorsAbove xs ++ factorsBelow xs

/-- The trees whose texts the text of a tree is made of. -/
def parts : Symbolic → List Symbolic
  | number _ | truth _ | symbol _ => []
  | sum xs => sumParts (inOrder xs)
  | product xs => quotientParts xs
  | power b e =>
    if e.isValue 0.5 then [b]
    else if e.isNegative then quotientParts [power b e]
    else [b, e]
  | remainder x y | relation _ x y => [x, y]
  | call _ xs | logical _ xs => xs
  | negation x => [x]

end Formulae.Symbolic
