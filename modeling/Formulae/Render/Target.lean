import Formulae.Render.Plain
import Formulae.Symbolic.Simplify

namespace Formulae

/-- What expressions are written for: arrays of numbers, or scalars in C++. -/
inductive Backend where
  | array
  | cpp
deriving DecidableEq, Repr

namespace Backend

/-- In C++ a literal of digits only is made one of a double, so that no division truncates. -/
def number : Backend → String → String
  | array, s => s
  | cpp, s => if s.toList.all Char.isDigit then s ++ ".0" else s

def truth : Backend → Bool → String
  | array, true => "True"
  | array, false => "False"
  | cpp, true => "true"
  | cpp, false => "false"

def connective : Backend → BoolOp → String
  | array, .and => " & "
  | array, .or => " | "
  | cpp, .and => " && "
  | cpp, .or => " || "

/-- What stands before the operand of a negation, which is always in parentheses. -/
def negation : Backend → String
  | array => "logical_not"
  | cpp => "!"

/-- Is the operator written between its operands? The others are written as calls. -/
def isBetween : Backend → BinaryOp → Bool
  | _, .mod => false
  | cpp, .pow => false
  | _, _ => true

/-- The name of the function that an operator is written with. -/
def functionName : BinaryOp → String
  | .pow => "pow"
  | _ => "fmod"

/-- The operand of a sign. In C++ two signs would run together to another operator. -/
def signed : Backend → Expr → String → String
  | cpp, .unary _ _ _, text => "(" ++ text ++ ")"
  | _, e, text => parenthesize 7 e text

/-- One comparison as it is, more of them as a conjunction. -/
def conjunction (b : Backend) : List String → String
  | [pair] => pair
  | pairs => (b.connective .and).intercalate (pairs.map fun p => "(" ++ p ++ ")")

end Backend

namespace Expr

mutual

def backendText (b : Backend) : Expr → String
  | number s _ _ => b.number s
  | bool v _ => b.truth v
  | var x _ => x
  | call f args _ => f ++ "(" ++ ", ".intercalate (backendTexts b args) ++ ")"
  | unary .not e _ => b.negation ++ "(" ++ backendText b e ++ ")"
  | unary op e _ => op.sign ++ b.signed e (backendText b e)
  | binary op l r _ =>
    if b.isBetween op then
      parenthesize op.leftLevel l (backendText b l) ++ " " ++ op.symbol ++ " " ++
        parenthesize op.rightLevel r (backendText b r)
    else
      Backend.functionName op ++ "(" ++ backendText b l ++ ", " ++ backendText b r ++ ")"
  | compare e rest _ =>
    b.conjunction (pairTexts b (parenthesize CmpOp.operandLevel e (backendText b e)) rest)
  | logical op es _ =>
    (b.connective op).intercalate ((backendTexts b es).map fun t => "(" ++ t ++ ")")

def backendTexts (b : Backend) : List Expr → List String
  | [] => []
  | e :: es => backendText b e :: backendTexts b es

/-- The comparisons of a chain one by one, given the text of the operand before them. -/
def pairTexts (b : Backend) (left : String) : List (CmpOp × Expr) → List String
  | [] => []
  | (op, e) :: rest =>
    let right := parenthesize CmpOp.operandLevel e (backendText b e)
    (left ++ " " ++ op.symbol ++ " " ++ right) :: pairTexts b right rest

end

end Expr

namespace Statement

/-- The text of a statement for a backend. An update whose operator the backend writes as a call is
written as an assignment; in C++ a semicolon ends the statement. -/
def backendText (b : Backend) (s : Statement) : String :=
  let s := match s.op with
    | .set => s
    | .update op => if b.isBetween op then s else s.expanded
  let line := s.target ++ " " ++ s.op.symbol ++ " " ++ s.value.backendText b
  match b with
  | .array => line
  | .cpp => line ++ ";"

end Statement

/-- The notation itself, a backend, or the constructors of simplified trees. -/
inductive Target where
  | plain
  | backend (b : Backend)
  | symbolic
deriving DecidableEq, Repr

namespace Target

def name : Target → String
  | plain => "plain"
  | backend .array => "numpy"
  | backend .cpp => "cpp"
  | symbolic => "sympy"

/-- The names that a target may be asked for by. -/
def names : List (String × Target) :=
  [("plain", plain), ("python", plain), ("numpy", backend .array), ("array", backend .array),
    ("cpp", backend .cpp), ("c++", backend .cpp), ("sympy", symbolic), ("symbolic", symbolic)]

/-- The target of a name, whatever the case of its ASCII letters. -/
def ofName (name : String) : Except Fault Target :=
  match names.lookup name.toLower with
  | some t => .ok t
  | none => .error { reason := .unknownTarget name }

def expr : Target → Expr → String
  | plain, e => e.text
  | backend b, e => e.backendText b
  | symbolic, e => e.symbolic.constructorText

def statement : Target → Statement → String
  | plain, s => s.text
  | backend b, s => s.backendText b
  | symbolic, s => s.target ++ " " ++ s.op.symbol ++ " " ++ s.value.symbolic.constructorText

def block (t : Target) (ss : List Statement) : String :=
  "\n".intercalate (ss.map t.statement)

end Target

end Formulae
