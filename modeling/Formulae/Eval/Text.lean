import Formulae.Builtins
import Formulae.Eval.Interpreter
import Formulae.Grammar.Definition
import Formulae.Render.Target

namespace Formulae.Interpreter

/-- What backends write for operators that they have no sign for. -/
def helpers : List (String × Callable) :=
  [("pow", .native (some 2) fun args => (args.getD 0 0).pow (args.getD 1 0)),
    ("fmod", .native (some 2) fun args => Number.remainder (args.getD 0 0) (args.getD 1 0)),
    ("logical_not", .predicate 1 fun args => args.getD 0 0 == 0)]

/-- The builtin functions and the helpers of the backends. -/
def builtin [Draws] : Interpreter :=
  .ofList ((Builtins.entries.filterMap fun (name, f) =>
    f.implementation.map fun g => (name, .native f.arity g)) ++ helpers)

/-- Definitions added in order, each replacing what had its name before. -/
def withDefinitions (fs : Interpreter) (ds : List Definition) : Interpreter :=
  ds.foldl (fun fs d => fs.insert d.name (.code d)) fs

def eval (fs : Interpreter) (scope : Scope) (e : Expr) : Except Fault Value :=
  Eval.expr (Eval.callWithin fs Eval.depthLimit) scope e

def run (fs : Interpreter) (scope : Scope) (ss : List Statement) : Except Eval.Stop Scope :=
  Eval.statements (Eval.callWithin fs Eval.depthLimit) scope ss

def evalText (fs : Interpreter) (d : Dialect) (scope : Scope) (text : String) :
    Except Fault Value := do
  fs.eval scope (← Expr.parse d text)

def runText (fs : Interpreter) (scope : Scope) (code : String) : Except Eval.Stop Scope :=
  match Statement.parseBlock code with
  | .ok ss => fs.run scope ss
  | .error fault => .error ⟨fault, scope⟩

/-- The text of an expression for a target, and the value of that text. -/
def evalRendered (fs : Interpreter) (t : Target) (scope : Scope) (e : Expr) :
    String × Except Fault Value :=
  let text := t.expr e
  (text, fs.evalText .rendered scope text)

end Formulae.Interpreter
