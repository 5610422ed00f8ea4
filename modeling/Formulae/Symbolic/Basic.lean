import Formulae.Number.Shortest
import Formulae.Syntax.Operator

namespace Formulae

/-- Trees of expressions, put together by operations that flatten, fold and collect operands. -/
inductive Symbolic where
  | number (value : Float)
  | truth (value : Bool)
  | symbol (name : String)
  | sum (terms : List Symbolic)
  | product (factors : List Symbolic)
  | power (base exponent : Symbolic)
  | remainder (dividend divisor : Symbolic)
  | call (name : String) (args : List Symbolic)
  | relation (op : CmpOp) (left right : Symbolic)
  | negation (operand : Symbolic)
  | logical (op : BoolOp) (operands : List Symbolic)

namespace Symbolic

instance : Inhabited Symbolic := ⟨.truth false⟩

mutual

/-- Equality of trees. Numbers are equal as doubles are: both zeros are, and what is not a number
is not equal even to itself. -/
def beq : Symbolic → Symbolic → Bool
  | number x, number y => x == y
  | truth a, truth b => a == b
  | symbol x, symbol y => x == y
  | sum xs, sum ys => beqList xs ys
  | product xs, product ys => beqList xs ys
  | power b e, power c f => beq b c && beq e f
  | remainder l r, remainder m s => beq l m && beq r s
  | call f xs, call g ys => f == g && beqList xs ys
  | relation o l r, relation p m s => o == p && beq l m && beq r s
  | negation x, negation y => beq x y
  | logical o xs, logical p ys => o == p && beqList xs ys
  | _, _ => false

def beqList : List Symbolic → List Symbolic → Bool
  | [], [] => true
  | x :: xs, y :: ys => beq x y && beqList xs ys
  | _, _ => false

end

instance : BEq Symbolic := ⟨beq⟩

mutual

def size : Symbolic → Nat
  | number _ | truth _ | symbol _ => 1
  | sum xs | product xs | call _ xs | logical _ xs => sizeOfList xs + 1
  | power x y | remainder x y | relation _ x y => size x + size y + 1
  | negation x => size x + 1

def sizeOfList : List Symbolic → Nat
  | [] => 0
  | x :: xs => size x + sizeOfList xs

end

def number? : Symbolic → Option Float
  | number x => some x
  | _ => none

def isNumber (s : Symbolic) : Bool := s.number?.isSome

def isValue (s : Symbolic) (x : Float) : Bool :=
  match s.number? with
  | some y => y == x
  | none => false

def isNegative (s : Symbolic) : Bool :=
  match s.number? with
  | some x => x < 0
  | none => false

mutual

/-- Is the value True or False, whatever the symbols stand for? -/
def isBoolean : Symbolic → Bool
  | truth _ | relation _ _ _ | negation _ => true
  | logical _ xs => areBoolean xs
  | _ => false

def areBoolean : List Symbolic → Bool
  | [] => true
  | x :: xs => isBoolean x && areBoolean xs

end

end Symbolic

namespace CmpOp

/-- The name of the relation that a comparison states. -/
def relationName : CmpOp → String
  | lt => "StrictLessThan"
  | le => "LessThan"
  | gt => "StrictGreaterThan"
  | ge => "GreaterThan"
  | eq => "Equality"
  | ne => "Unequality"

end CmpOp

namespace Symbolic

def quoted (name : String) : String := "'" ++ name ++ "'"

def numberConstructor (x : Float) : String :=
  match Number.integer? x with
  | some n => "Integer(" ++ toString n ++ ")"
  | none => "Float(" ++ quoted (Number.text x) ++ ", precision=53)"

mutual

/-- The tree written as nested applications of constructors. -/
def constructorText : Symbolic → String
  | number x => numberConstructor x
  | truth b => if b then "true" else "false"
  | symbol x => "Symbol(" ++ quoted x ++ ")"
  | sum xs => "Add(" ++ ", ".intercalate (constructorTexts xs) ++ ")"
  | product xs => "Mul(" ++ ", ".intercalate (constructorTexts xs) ++ ")"
  | power x y => "Pow(" ++ constructorText x ++ ", " ++ constructorText y ++ ")"
  | remainder x y => "Mod(" ++ constructorText x ++ ", " ++ constructorText y ++ ")"
  | call f xs => "Function(" ++ quoted f ++ ")(" ++ ", ".intercalate (constructorTexts xs) ++ ")"
  | relation op x y =>
    op.relationName ++ "(" ++ constructorText x ++ ", " ++ constructorText y ++ ")"
  | negation x => "Not(" ++ constructorText x ++ ")"
  | logical .and xs => "And(" ++ ", ".intercalate (constructorTexts xs) ++ ")"
  | logical .or xs => "Or(" ++ ", ".intercalate (constructorTexts xs) ++ ")"

def constructorTexts : List Symbolic → List String
  | [] => []
  | x :: xs => constructorText x :: constructorTexts xs

end

/-- The first criterion for the order of operands. -/
def rank : Symbolic → Nat
  | number _ => 0
  | truth _ => 1
  | symbol _ => 2
  | call _ _ => 3
  | power _ _ => 4
  | product _ => 5
  | sum _ => 6
  | remainder _ _ => 7
  | relation _ _ _ => 8
  | negation _ => 9
  | logical .and _ => 10
  | logical .or _ => 11

/-- A tree with what it is ordered by: its rank, and then its text as constructors. -/
structure Keyed where
  rank : Nat
  text : String
  tree : Symbolic

namespace Keyed

def ofTree (s : Symbolic) : Keyed := ⟨s.rank, s.constructorText, s⟩

/-- May the first stand before the second? -/
def ordered (a b : Keyed) : Bool :=
  a.rank < b.rank || (a.rank == b.rank && decide (a.text ≤ b.text))

/-- Puts a tree before the first that it may stand before. -/
def insert (a : Keyed) : List Keyed → List Keyed
  | [] => [a]
  | b :: bs => if ordered a b then a :: b :: bs else b :: insert a bs

end Keyed

/-- The operands in order; equal ones stay as they were. -/
def sorted (xs : List Symbolic) : List Symbolic :=
  ((xs.map Keyed.ofTree).foldr Keyed.insert []).map Keyed.tree

end Symbolic

end Formulae
