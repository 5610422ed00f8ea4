import Formulae.Names
import Formulae.Syntax.Operator
import Formulae.Fault

namespace Formulae

/-- A chain of comparisons is one node, and so is a chain of one connective. -/
inductive Expr where
  /-- A literal as it was written, and its value. -/
  | number (literal : String) (value : Float) (span : Span)
  | bool (value : Bool) (span : Span)
  | var (name : String) (span : Span)
  | call (name : String) (args : List Expr) (span : Span)
  | unary (op : UnaryOp) (operand : Expr) (span : Span)
  | binary (op : BinaryOp) (left right : Expr) (span : Span)
  /-- The leftmost operand, and each further one with the comparison before it. -/
  | compare (first : Expr) (rest : List (CmpOp × Expr)) (span : Span)
  | logical (op : BoolOp) (operands : List Expr) (span : Span)

namespace Expr

instance : Inhabited Expr := ⟨.bool false .zero⟩

def span : Expr → Span
  | number _ _ s => s
  | bool _ s => s
  | var _ s => s
  | call _ _ s => s
  | unary _ _ s => s
  | binary _ _ _ s => s
  | compare _ _ s => s
  | logical _ _ s => s

/-- How tightly the outermost operator binds; what needs no parentheses anywhere is highest. -/
def precedence : Expr → Nat
  | logical op _ _ => op.precedence
  | unary .not _ _ => 3
  | compare _ _ _ => 4
  | binary op _ _ _ => op.precedence
  | unary _ _ _ => 7
  | number _ _ _ | bool _ _ | var _ _ | call _ _ _ => 9

mutual

/-- The variables read, which do not include the functions called. -/
def identifiers : Expr → Names
  | number _ _ _ | bool _ _ => ∅
  | var x _ => {x}
  | call _ args _ => identifiersOfList args
  | unary _ e _ => identifiers e
  | binary _ l r _ => identifiers l ∪ identifiers r
  | compare e rest _ => identifiers e ∪ identifiersOfRest rest
  | logical _ es _ => identifiersOfList es

def identifiersOfList : List Expr → Names
  | [] => ∅
  | e :: es => identifiers e ∪ identifiersOfList es

def identifiersOfRest : List (CmpOp × Expr) → Names
  | [] => ∅
  | (_, e) :: rest => identifiers e ∪ identifiersOfRest rest

end

mutual

def functions : Expr → Names
  | number _ _ _ | bool _ _ | var _ _ => ∅
  | call f args _ => {f} ∪ functionsOfList args
  | unary _ e _ => functions e
  | binary _ l r _ => functions l ∪ functions r
  | compare e rest _ => functions e ∪ functionsOfRest rest
  | logical _ es _ => functionsOfList es

def functionsOfList : List Expr → Names
  | [] => ∅
  | e :: es => functions e ∪ functionsOfList es

def functionsOfRest : List (CmpOp × Expr) → Names
  | [] => ∅
  | (_, e) :: rest => functions e ∪ functionsOfRest rest

end

mutual

/-- The expression with every span at zero. -/
def eraseSpans : Expr → Expr
  | number s n _ => number s n .zero
  | bool b _ => bool b .zero
  | var x _ => var x .zero
  | call f args _ => call f (eraseSpansOfList args) .zero
  | unary op e _ => unary op (eraseSpans e) .zero
  | binary op l r _ => binary op (eraseSpans l) (eraseSpans r) .zero
  | compare e rest _ => compare (eraseSpans e) (eraseSpansOfRest rest) .zero
  | logical op es _ => logical op (eraseSpansOfList es) .zero

def eraseSpansOfList : List Expr → List Expr
  | [] => []
  | e :: es => eraseSpans e :: eraseSpansOfList es

def eraseSpansOfRest : List (CmpOp × Expr) → List (CmpOp × Expr)
  | [] => []
  | (op, e) :: rest => (op, eraseSpans e) :: eraseSpansOfRest rest

end

mutual

/-- The expression with the variables of a table renamed. -/
def rename (names : Table String) : Expr → Expr
  | number s n sp => number s n sp
  | bool b sp => bool b sp
  | var x sp => var (names.getD x x) sp
  | call f args sp => call f (renameList names args) sp
  | unary op e sp => unary op (rename names e) sp
  | binary op l r sp => binary op (rename names l) (rename names r) sp
  | compare e rest sp => compare (rename names e) (renameRest names rest) sp
  | logical op es sp => logical op (renameList names es) sp

def renameList (names : Table String) : List Expr → List Expr
  | [] => []
  | e :: es => rename names e :: renameList names es

def renameRest (names : Table String) : List (CmpOp × Expr) → List (CmpOp × Expr)
  | [] => []
  | (op, e) :: rest => (op, rename names e) :: renameRest names rest

end

end Expr

/-- Plain assignment, or an update of the target by an arithmetic operator. -/
inductive AssignOp where
  | set
  | update (op : BinaryOp)
deriving DecidableEq, Repr

def AssignOp.symbol : AssignOp → String
  | set => "="
  | update op => op.symbol ++ "="

/-- One line of code: a name is given a value. -/
structure Statement where
  target : String
  op : AssignOp
  value : Expr

namespace Statement

/-- The variables read, the target among them if it is updated. -/
def reads (s : Statement) : Names :=
  match s.op with
  | .set => s.value.identifiers
  | .update _ => s.value.identifiers.insert s.target

def eraseSpans (s : Statement) : Statement :=
  { s with value := s.value.eraseSpans }

end Statement

end Formulae
