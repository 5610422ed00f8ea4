import Formulae.Number.Shortest
import Formulae.Syntax.Operator
import Formulae.Definition

namespace Formulae

/-- What an expression evaluates to. Where a number is asked for, True is one and False is zero. -/
inductive Value where
  | bool (b : Bool)
  | number (x : Float)

namespace Value

def toFloat : Value → Float
  | bool b => if b then 1 else 0
  | number x => x

/-- Does the value count as true? All numbers but zero do, and so does what is not a number. -/
def isTrue : Value → Bool
  | bool b => b
  | number x => x != 0

def text : Value → String
  | bool b => if b then "True" else "False"
  | number x => Number.text x

def binary (op : BinaryOp) (l r : Value) : Value :=
  number (op.apply l.toFloat r.toFloat)

def unary (op : UnaryOp) (v : Value) : Value :=
  match op with
  | .pos => number v.toFloat
  | .neg => number (-v.toFloat)
  | .not => bool (!v.isTrue)

/-- Does the value, as an operand of a connective, decide what the connective gives? -/
def decides (op : BoolOp) (v : Value) : Bool :=
  v.isTrue != op.identity

end Value

abbrev Scope := Table Value

/-- What a call may be of. -/
inductive Callable where
  | native (arity : Option Nat) (f : List Float → Float)
  | predicate (arity : Nat) (f : List Float → Bool)
  | code (d : Definition)

/-- The functions that may be called. -/
abbrev Interpreter := Table Callable

/-- The meaning of calls: the value for a place in the text, the name of a function, arguments and
the variables of the caller. -/
abbrev Caller := Span → String → List Value → Scope → Except Fault Value

namespace Eval

mutual

def expr (call : Caller) (scope : Scope) : Expr → Except Fault Value
  | .number _ x _ => .ok (.number x)
  | .bool b _ => .ok (.bool b)
  | .var x sp =>
    match scope[x]? with
    | some v => .ok v
    | none => .error (.located (.unassigned x) sp)
  | .call f args sp => do
    let vs ← exprList call scope args
    call sp f vs scope
  | .unary op e _ => do
    let v ← expr call scope e
    return .unary op v
  | .binary op l r _ => do
    let v ← expr call scope l
    let w ← expr call scope r
    return .binary op v w
  | .compare e rest _ => do
    let v ← expr call scope e
    comparisons call scope v.toFloat rest
  | .logical op es _ => connective call scope op es

def exprList (call : Caller) (scope : Scope) : List Expr → Except Fault (List Value)
  | [] => .ok []
  | e :: es => do
    let v ← expr call scope e
    return v :: (← exprList call scope es)

/-- Comparisons one after the other, up to the first that does not hold. -/
def comparisons (call : Caller) (scope : Scope) (left : Float) :
    List (CmpOp × Expr) → Except Fault Value
  | [] => .ok (.bool true)
  | (op, e) :: rest => do
    let v ← expr call scope e
    if op.holds left v.toFloat then comparisons call scope v.toFloat rest else .ok (.bool false)

/-- The first operand that decides a connective, or else the last one. -/
def connective (call : Caller) (scope : Scope) (op : BoolOp) : List Expr → Except Fault Value
  | [] => .ok (.bool op.identity)
  | [e] => expr call scope e
  | e :: es => do
    let v ← expr call scope e
    if v.decides op then .ok v else connective call scope op es

end

/-- A fault that stops a run, and the values of the variables at that point. -/
structure Stop where
  fault : Fault
  scope : Scope

def assigned (call : Caller) (scope : Scope) (s : Statement) : Except Fault Value := do
  let v ← expr call scope s.value
  match s.op with
  | .set => return v
  | .update op =>
    match scope[s.target]? with
    | some old => return .binary op old v
    | none => .error { reason := .updatedUnassigned s.target }

def statements (call : Caller) : Scope → List Statement → Except Stop Scope
  | scope, [] => .ok scope
  | scope, s :: ss =>
    match assigned call scope s with
    | .ok v => statements call (scope.insert s.target v) ss
    | .error f => .error ⟨f, scope⟩

/-- Refuses a number of arguments other than the one expected. -/
def checkCount (sp : Span) (f : String) (expected given : Nat) : Except Fault Unit :=
  if expected = given then .ok () else .error (.located (.argumentCount f expected given) sp)

/-- The variables that a body sees at first: those of the caller, and the parameters. -/
def bodyScope (d : Definition) (args : List Value) (scope : Scope) : Scope :=
  (d.params.zip args).foldl (fun s (x, v) => s.insert x v) scope

/-- A call, given the meaning of calls in bodies if definitions may still be called. -/
def callWith (fs : Interpreter) (inner : Option Caller) : Caller := fun sp f args scope =>
  match fs[f]? with
  | none => .error (.located (.unknownFunction f) sp)
  | some (.native arity g) => do
    checkCount sp f (arity.getD args.length) args.length
    return .number (g (args.map Value.toFloat))
  | some (.predicate arity g) => do
    checkCount sp f arity args.length
    return .bool (g (args.map Value.toFloat))
  | some (.code d) => do
    checkCount sp f d.params.length args.length
    match inner, d.result with
    | none, _ => .error (.located (.nestedCalls f) sp)
    | some _, none => .error (.located (.withoutResult f) sp)
    | some caller, some result =>
      match statements caller (bodyScope d args scope) d.body with
      | .ok after => expr caller after result
      | .error stop => .error stop.fault

/-- Calls of definitions that nest at most `depth` deep. -/
def callWithin (fs : Interpreter) : (depth : Nat) → Caller
  | 0 => callWith fs none
  | depth + 1 => callWith fs (some (callWithin fs depth))

def depthLimit : Nat := 256

end Eval

end Formulae
