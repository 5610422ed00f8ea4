import Formulae.Render.Plain

namespace Formulae

/-- A function that is defined in code: parameters, assignments, and an expression for the result,
which may be missing. -/
structure Definition where
  name : String
  params : List String
  body : List Statement
  result : Option Expr

namespace Definition

def locals (d : Definition) : Names :=
  .ofList (d.body.map (·.target))

def calls (d : Definition) : Names :=
  let inResult := match d.result with
    | some e => e.functions
    | none => ∅
  d.body.foldl (fun names s => names ∪ s.value.functions) inResult

/-- The definition as it may be read back. A body without statements and without a result is
written as a bare `return`. -/
def text (d : Definition) : String :=
  let last := match d.result with
    | some e => "    return " ++ e.text
    | none => if d.body.isEmpty then "    return" else ""
  "def " ++ d.name ++ "(" ++ ", ".intercalate d.params ++ "):\n" ++
    String.join (d.body.map fun s => "    " ++ s.text ++ "\n") ++ last

end Definition

/-- Definitions by name; of several with one name the last counts. -/
def Table.ofDefinitions (ds : List Definition) : Table Definition :=
  .ofList (ds.map fun d => (d.name, d))

/-- The known functions, each with the known functions that it calls. -/
abbrev CallGraph := Table Names

namespace CallGraph

/-- The calls between the functions of a table; calls of any others are left out. -/
def ofDefinitions (known : Table Definition) : CallGraph :=
  known.map fun _ d => d.calls.filter known.contains

/-- Visits a function and all that it reaches, but no function twice: what is done after it, or a
path of calls that ends where it has been before. The stack holds the functions that are being
visited; there are never more of them than there are functions, so that the depth runs out for
none that is known. -/
def visit (g : CallGraph) (depth : Nat) (stack : List String) (done : Names) (f : String) :
    Except (List String) Names :=
  if f ∈ done then .ok done
  else if f ∈ stack then .error (stack ++ [f])
  else
    match depth, g[f]? with
    | depth + 1, some callees => do
      let done ← callees.toList.foldlM (visit g depth (stack ++ [f])) done
      return done.insert f
    | _, _ => .ok done

/-- Visits one function after the other, each from an empty stack. -/
def search (g : CallGraph) (roots : List String) : Except (List String) Names :=
  roots.foldlM (g.visit g.size []) ∅

/-- A path of calls that ends where it has been before, if there is a cycle. -/
def cycle? (g : CallGraph) : Option (List String) :=
  match g.search g.keys with
  | .ok _ => none
  | .error path => some path

end CallGraph

end Formulae
