import Formulae.Symbolic.Basic

namespace Formulae.Symbolic

mutual

/-- The terms of a sum, and of the sums among them. -/
def terms : Symbolic → List Symbolic
  | sum xs => termsOfList xs
  | x => [x]

def termsOfList : List Symbolic → List Symbolic
  | [] => []
  | x :: xs => terms x ++ termsOfList xs

end

mutual

/-- The factors of a product, and of the products among them. -/
def factors : Symbolic → List Symbolic
  | product xs => factorsOfList xs
  | x => [x]

def factorsOfList : List Symbolic → List Symbolic
  | [] => []
  | x :: xs => factors x ++ factorsOfList xs

end

/-- The start value and the numbers among the operands, combined in order. -/
def foldNumbers (combine : Float → Float → Float) (start : Float) (xs : List Symbolic) : Float :=
  (xs.filterMap number?).foldl combine start

def others (xs : List Symbolic) : List Symbolic :=
  xs.filter fun x => !x.isNumber

/-- The rest of a term without its coefficient, and the coefficient. -/
def splitCoefficient : Symbolic → Symbolic × Float
  | product (number c :: [x]) => (x, c)
  | product (number c :: xs) => (product xs, c)
  | x => (x, 1)

/-- Adds the value for a key: to the first equal key, or else behind all others. -/
def combineAt {α : Type} (combine : α → α → α) (key : Symbolic) (value : α) :
    List (Symbolic × α) → List (Symbolic × α)
  | [] => [(key, value)]
  | (k, v) :: rest =>
    if k == key then (k, combine v value) :: rest
    else (k, v) :: combineAt combine key value rest

/-- One entry for each key, in the order of their first occurrences. -/
def collect {α : Type} (combine : α → α → α) (entries : List (Symbolic × α)) :
    List (Symbolic × α) :=
  entries.foldl (fun found e => combineAt combine e.1 e.2 found) []

/-- A factor as a base and an exponent, which will be one of several to be added. -/
def splitPower : Symbolic → Symbolic × List Symbolic
  | power b e => (b, [e])
  | x => (x, [number 1])

/-- The sum of terms and a constant, which is left out if it is zero and not all there is. -/
def sumOf (constant : Float) (xs : List Symbolic) : Symbolic :=
  let xs := if constant != 0 || xs.isEmpty then xs ++ [number constant] else xs
  match xs with
  | [x] => x
  | xs => sum (sorted xs)

/-- The product of factors and a coefficient, which comes first and is left out if it is one. -/
def productOf (coefficient : Float) (xs : List Symbolic) : Symbolic :=
  let xs := sorted xs
  match if coefficient != 1 then number coefficient :: xs else xs with
  | [x] => x
  | xs => product xs

def isProduct : Symbolic → Bool
  | product _ => true
  | _ => false

mutual

def add? : Nat → List Symbolic → Option Symbolic
  | 0, _ => none
  | depth + 1, xs => do
    let parts := (termsOfList xs).reverse
    let collected := collect (· + ·) ((others parts).map splitCoefficient)
    let scaled ← (collected.filter (·.2 != 0)).mapM fun (x, c) =>
      if c == 1 then some x else mul? depth [number c, x]
    return sumOf (foldNumbers (· + ·) 0 parts) scaled

/-- The product of factors. A coefficient before a single sum goes to each of its terms. -/
def mul? : Nat → List Symbolic → Option Symbolic
  | 0, _ => none
  | depth + 1, xs => do
    let parts := (factorsOfList xs).reverse
    let coefficient := foldNumbers (· * ·) 1 parts
    if coefficient == 0 then return number 0
    let powers ← (collect (· ++ ·) ((others parts).map splitPower)).mapM fun (base, exponents) => do
      pow? depth base (← add? depth exponents)
    let coefficient := foldNumbers (· * ·) coefficient powers
    let powers := others powers
    if powers.any isProduct then mul? depth (powers ++ [number coefficient])
    else
      match powers with
      | [] => return number coefficient
      | [sum xs] =>
        if coefficient != 1 then
          add? depth (← xs.mapM fun x => mul? depth [number coefficient, x])
        else return sum xs
      | _ => return productOf coefficient powers

/-- A power. Numbers are raised if the result is finite; a whole exponent goes to the exponent of
a power and to the factors of a product. -/
def pow? : Nat → Symbolic → Symbolic → Option Symbolic
  | 0, _, _ => none
  | depth + 1, base, exponent =>
    if exponent.isValue 0 then some (number 1)
    else if exponent.isValue 1 then some base
    else if base.isValue 1 then some (number 1)
    else
      match exponent with
      | number n =>
        match base with
        | number b =>
          let value := b.pow n
          some (if value.isFinite then number value else power base exponent)
        | power b e =>
          if (Number.integer? n).isSome then do
            pow? depth b (← mul? depth [e, exponent])
          else some (power base exponent)
        | product xs =>
          if (Number.integer? n).isSome then do
            mul? depth (← xs.mapM fun x => pow? depth x exponent)
          else some (power base exponent)
        | _ => some (power base exponent)
      | _ => some (power base exponent)

end

/-- A bound on the depth of the calls for operands of a size in all. -/
def depthFor (size : Nat) : Nat := 64 * (size + 1) * (size + 1)

def add (xs : List Symbolic) : Symbolic :=
  (add? (depthFor (sizeOfList xs)) xs).getD (sum xs)

def mul (xs : List Symbolic) : Symbolic :=
  (mul? (depthFor (sizeOfList xs)) xs).getD (product xs)

def pow (base exponent : Symbolic) : Symbolic :=
  (pow? (depthFor (base.size + exponent.size)) base exponent).getD (power base exponent)

def neg (x : Symbolic) : Symbolic := mul [number (-1), x]

def sub (x y : Symbolic) : Symbolic := add [x, neg y]

def div (x y : Symbolic) : Symbolic := mul [x, pow y (number (-1))]

/-- The remainder, which takes the sign of the dividend. -/
def mod (x y : Symbolic) : Symbolic :=
  match x, y with
  | number a, number b =>
    let rest := Number.remainder a b
    if rest.isFinite then number rest else remainder x y
  | _, _ => remainder x y

/-- A call; a square root is a power. -/
def apply : (name : String) → List Symbolic → Symbolic
  | "sqrt", [x] => pow x (number 0.5)
  | f, xs => call f xs

def relate (op : CmpOp) : Symbolic → Symbolic → Symbolic
  | number x, number y => truth (op.holds x y)
  | x, y => relation op x y

def not : Symbolic → Symbolic
  | truth b => truth (!b)
  | relation op x y => relation op.negate x y
  | negation x => if x.isBoolean then x else negation (negation x)
  | x => negation x

/-- The operands of a connective, with those of the same connective among them. -/
def flatten (op : BoolOp) : List Symbolic → List Symbolic
  | [] => []
  | logical o ys :: xs => if o = op then ys ++ flatten op xs else logical o ys :: flatten op xs
  | x :: xs => x :: flatten op xs

def isTruth (b : Bool) : Symbolic → Bool
  | truth c => b == c
  | _ => false

/-- Each operand once, at its first place. -/
def distinct (xs : List Symbolic) : List Symbolic :=
  xs.foldl (fun kept x => if kept.any (· == x) then kept else kept ++ [x]) []

/-- The operands behind the constants at the front, unless one of those decides. -/
def undecided (op : BoolOp) : List Symbolic → Option (List Symbolic)
  | truth b :: xs => if b = op.identity then undecided op xs else none
  | xs => some xs

/-- The operands that are left, unless one decides. -/
def remaining (op : BoolOp) (xs : List Symbolic) : Option (List Symbolic) :=
  if xs.all isBoolean then
    if xs.any (isTruth (!op.identity)) then none
    else some (distinct (xs.filter fun x => !isTruth op.identity x))
  else undecided op xs

/-- The operands of a connective, put together. -/
def logic (op : BoolOp) (xs : List Symbolic) : Symbolic :=
  match remaining op (flatten op xs) with
  | none => truth (!op.identity)
  | some [] => truth op.identity
  | some [x] => x
  | some xs => logical op xs

end Formulae.Symbolic
