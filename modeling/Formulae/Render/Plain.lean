import Formulae.Syntax.Expr

namespace Formulae

/-- The text, in parentheses if it is of an expression that binds less tightly than `least`. -/
def parenthesize (least : Nat) (e : Expr) (text : String) : String :=
  if e.precedence < least then "(" ++ text ++ ")" else text

/-- How tightly an operand has to bind to stand without parentheses. -/
def UnaryOp.operandLevel : UnaryOp → Nat
  | not => 3
  | pos | neg => 7

/-- The same for the left operand: a power groups to the right, other operators to the left. -/
def BinaryOp.leftLevel : BinaryOp → Nat
  | pow => 9
  | op => op.precedence

/-- The same for the right operand; an exponent may have a sign. -/
def BinaryOp.rightLevel : BinaryOp → Nat
  | pow => 7
  | op => op.precedence + 1

/-- The same for the operands of comparisons, which do not nest. -/
def CmpOp.operandLevel : Nat := 5

/-- The same for the operands of a connective, which do not nest in their own kind. -/
def BoolOp.operandLevel (op : BoolOp) : Nat := op.precedence + 1

namespace Expr

mutual

def text : Expr → String
  | number s _ _ => s
  | bool b _ => if b then "True" else "False"
  | var x _ => x
  | call f args _ => f ++ "(" ++ ", ".intercalate (argumentTexts args) ++ ")"
  | unary op e _ => op.sign ++ parenthesize op.operandLevel e (text e)
  | binary op l r _ =>
    parenthesize op.leftLevel l (text l) ++ " " ++ op.symbol ++ " " ++
      parenthesize op.rightLevel r (text r)
  | compare e rest _ => parenthesize CmpOp.operandLevel e (text e) ++ comparisonTexts rest
  | logical op es _ => (" " ++ op.word ++ " ").intercalate (operandTexts op es)

def argumentTexts : List Expr → List String
  | [] => []
  | e :: es => text e :: argumentTexts es

def operandTexts (op : BoolOp) : List Expr → List String
  | [] => []
  | e :: es => parenthesize op.operandLevel e (text e) :: operandTexts op es

def comparisonTexts : List (CmpOp × Expr) → String
  | [] => ""
  | (op, e) :: rest =>
    " " ++ op.symbol ++ " " ++ parenthesize CmpOp.operandLevel e (text e) ++ comparisonTexts rest

end

end Expr

namespace Statement

def text (s : Statement) : String :=
  s.target ++ " " ++ s.op.symbol ++ " " ++ s.value.text

/-- The plain texts of statements, one to a line. -/
def blockText (ss : List Statement) : String :=
  "\n".intercalate (ss.map text)

/-- An update written as an assignment of the operator applied to the target. -/
def expanded (s : Statement) : Statement :=
  match s.op with
  | .set => s
  | .update op =>
    { s with
      op := .set
      value := .binary op (.var s.target s.value.span) s.value s.value.span }

end Statement

end Formulae
