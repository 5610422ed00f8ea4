import Formulae.Environment
import Formulae.Grammar.Expression
import Formulae.Render.Plain

namespace Formulae

namespace Expr

/-- The value of an expression of numbers, truth values, and constants with a single value that is
known. -/
def constantValue (env : Environment) : Expr → Except Fault Float
  | number _ x _ => .ok x
  | bool b _ => .ok (Variable.numberOfBool b)
  | var x sp =>
    match env.vars[x]? with
    | none => .error (.located (.unknownVariable x) sp)
    | some v =>
      if !v.constant then .error (.located (.notConstant x) sp)
      else if !v.scalar then .error (.located (.notScalar x) sp)
      else
        match v.value with
        | some value => .ok value
        | none => .error (.located (.withoutValue x) sp)
  | unary .neg e _ => do return -(← constantValue env e)
  | unary .pos e _ => constantValue env e
  | binary op l r _ => do
    let x ← constantValue env l
    let y ← constantValue env r
    return op.apply x y
  | e => .error (.located (.notComputable e.text) e.span)

/-- The unit of a power of something in the unit `base`. The exponent must have no unit; it must
be constant unless the base has no unit either. -/
def powerUnit [Closeness] (env : Environment) (base : Dimension) (exponent : Expr) (unit : Dimension) :
    Except Fault Dimension :=
  if !unit.isDimensionless then .error (.located (.exponentWithUnit unit.text) exponent.span)
  else if base.isDimensionless then .ok .dimensionless
  else
    match exponent.constantValue env with
    | .ok x => .ok (base.pow x)
    | .error f => .error (.located (.inexactExponent f.reason) exponent.span)

/-- The unit of an operation on operands in the units `left` and `right`. -/
def binaryUnit [Closeness] (env : Environment) (e : Expr) (op : BinaryOp) (exponent : Expr)
    (left right : Dimension) : Except Fault Dimension :=
  match op with
  | .add | .sub =>
    if left.agrees right then .ok left
    else .error (.located (.unitsDiffer e.text left.text right.text) e.span)
  | .mul => .ok (left.mul right)
  | .div => .ok (left.div right)
  | .mod => .ok left
  | .pow => powerUnit env left exponent right

/-- The function of a call with a number of arguments. -/
def calledFunction (env : Environment) (f : String) (count : Nat) (sp : Span) :
    Except Fault Function :=
  match env.functions[f]? with
  | none => .error (.located (.unknownFunction f) sp)
  | some fn =>
    match fn.arity with
    | none => .ok fn
    | some n => if n = count then .ok fn else .error (.located (.argumentCount f n count) sp)

/-- The unit of the result of a call, given the units of the arguments. -/
def resultUnit [Closeness] (fn : Function) (f : String) (args : List Dimension) (sp : Span) :
    Except Fault Dimension :=
  if fn.returnsBool then .ok .dimensionless
  else
    match fn.unitRule.apply f args with
    | .ok d => .ok d
    | .error fault => .error (fault.inSpan sp)

mutual

/-- The unit of an expression. Terms, and operands that are compared, must have the same unit. -/
def unit [Closeness] (env : Environment) : Expr → Except Fault Dimension
  | number _ _ _ | bool _ _ => .ok .dimensionless
  | var x sp =>
    match env.vars[x]? with
    | some v => .ok v.unit
    | none => .error (.located (.unknownVariable x) sp)
  | call f args sp => do
    let fn ← calledFunction env f args.length sp
    let units ← unitList env args
    resultUnit fn f units sp
  | unary op e _ => do
    let d ← unit env e
    return if op = .not then .dimensionless else d
  | binary op l r sp => do
    let c ← unit env l
    let d ← unit env r
    binaryUnit env (binary op l r sp) op r c d
  | compare e rest sp => do
    let d ← unit env e
    unitOfRest env (compare e rest sp) d rest
    return .dimensionless
  | logical _ es _ => do
    let _ ← unitList env es
    return .dimensionless

def unitList [Closeness] (env : Environment) : List Expr → Except Fault (List Dimension)
  | [] => .ok []
  | e :: es => do
    let d ← unit env e
    return d :: (← unitList env es)

/-- Refuses a comparison in the chain `whole` whose operands differ in their units. -/
def unitOfRest [Closeness] (env : Environment) (whole : Expr) (left : Dimension) :
    List (CmpOp × Expr) → Except Fault Unit
  | [] => .ok ()
  | (op, e) :: rest => do
    let d ← unit env e
    if left.agrees d then unitOfRest env whole d rest
    else .error (.located (.unitsCompared whole.text left.text op.symbol d.text) whole.span)

end

mutual

/-- Is the value always True or False? Operands of connectives and of `not` have to be. -/
def isBoolean (env : Environment) : Expr → Except Fault Bool
  | number _ _ _ => .ok false
  | bool _ _ => .ok true
  | var x _ => .ok ((env.vars[x]?.map Variable.isBool).getD false)
  | call f _ sp =>
    match env.functions[f]? with
    | some fn => .ok fn.returnsBool
    | none => .error (.located (.unknownFunction f) sp)
  | compare _ _ _ => .ok true
  | logical op es sp => do
    areBoolean env (logical op es sp) es
    return true
  | unary .not e sp => do
    if ← isBoolean env e then return true
    else .error (.located (.negatedNumber e.text) sp)
  | unary _ _ _ => .ok false
  | binary _ _ _ _ => .ok false

/-- Refuses an operand of `whole` that is not always True or False. -/
def areBoolean (env : Environment) (whole : Expr) : List Expr → Except Fault Unit
  | [] => .ok ()
  | e :: es => do
    if ← isBoolean env e then areBoolean env whole es
    else .error (.located (.mixedOperand e.text whole.text) whole.span)

end

end Expr

namespace Environment

def unitOfText [Closeness] (env : Environment) (text : String) : Except Fault Dimension := do
  (← Expr.parse .equation text).unit env

def valueOfText (env : Environment) (text : String) : Except Fault Float := do
  (← Expr.parse .equation text).constantValue env

def isBooleanText (env : Environment) (text : String) : Except Fault Bool := do
  (← Expr.parse .equation text).isBoolean env

end Environment

end Formulae
