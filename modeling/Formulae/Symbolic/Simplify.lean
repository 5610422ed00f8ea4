import Formulae.Grammar.Expression
import Formulae.Symbolic.Operations
import Formulae.Symbolic.Text

namespace Formulae

namespace Symbolic

def ofBinary : BinaryOp → Symbolic → Symbolic → Symbolic
  | .add, x, y => add [x, y]
  | .sub, x, y => sub x y
  | .mul, x, y => mul [x, y]
  | .div, x, y => div x y
  | .mod, x, y => mod x y
  | .pow, x, y => pow x y

def ofUnary : UnaryOp → Symbolic → Symbolic
  | .pos, x => x
  | .neg, x => neg x
  | .not, x => not x

end Symbolic

namespace Expr

mutual

/-- The symbolic form. A chain of comparisons is the conjunction of single ones. -/
def symbolic : Expr → Symbolic
  | number _ x _ => .number x
  | bool b _ => .truth b
  | var x _ => .symbol x
  | call f args _ => .apply f (symbolicList args)
  | unary op e _ => .ofUnary op (symbolic e)
  | binary op l r _ => .ofBinary op (symbolic l) (symbolic r)
  | compare e rest _ => .logic .and (relations (symbolic e) rest)
  | logical op es _ => .logic op (symbolicList es)

def symbolicList : List Expr → List Symbolic
  | [] => []
  | e :: es => symbolic e :: symbolicList es

/-- The comparisons of a chain one by one, given the operand before them. -/
def relations (left : Symbolic) : List (CmpOp × Expr) → List Symbolic
  | [] => []
  | (op, e) :: rest =>
    let right := symbolic e
    .relate op left right :: relations right rest

end

end Expr

def Symbolic.ofText (text : String) : Except Fault Symbolic := do
  return (← Expr.parse .equation text).symbolic

def simplify (text : String) : Except Fault String := do
  return (← Symbolic.ofText text).text

end Formulae
