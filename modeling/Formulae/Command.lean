import Formulae.Analysis
import Formulae.Command.Basic
import Formulae.Command.Variables
import Formulae.Dependencies
import Formulae.Grammar.Definition
import Formulae.Inline
import Formulae.Render.Target

namespace Formulae

namespace Command

def paths : Command → List String
  | render _ true input => [input]
  | dependencies path _ _ => [path]
  | unit _ vars | isBool _ vars | value _ vars => vars.toList
  | inlining path functions => [functions, path]
  | _ => []

/-- What files hold, or why they cannot be read. -/
abbrev Files := String → Except ReadFailure String

def contents (files : Files) (path : String) : Except Failure String :=
  match files path with
  | .ok text => .ok text
  | .error why => .error (.reading path why)

/-- A result, in which a fault is a failure of the command. -/
def orFail {α : Type} : Except Fault α → Except Failure α
  | .ok a => .ok a
  | .error f => .error (.fault f)

/-- The builtin functions, and the variables that a file describes. -/
def environment [Draws] (files : Files) : Option String → Except Failure Environment
  | none => .ok .builtin
  | some path => do Environment.ofText (← contents files path)

def namesJson (names : Names) : Json := .array (names.toList.map fun x => .string (codePoints x))

end Command

/-- The sets of names, each with a name of its own. -/
def Dependencies.toJson (d : Dependencies) : Json :=
  .object ([("all", d.all), ("read", d.read), ("write", d.written), ("funcs", d.called),
    ("known_all", d.knownAll), ("known_read", d.knownRead), ("known_write", d.knownWritten),
    ("known_funcs", d.knownCalled), ("unknown_read", d.unknownRead),
    ("unknown_write", d.unknownWritten), ("unknown_funcs", d.unknownCalled),
    ("undefined_read", d.undefinedRead), ("newly_defined", d.newlyDefined)].map
    fun (name, names) => (codePoints name, Command.namesJson names))

namespace Command

/-- The line or lines that a command prints. -/
def run [Closeness] [Draws] (files : Files) : Command → Except Failure String
  | render target isCode input => do
    let t ← orFail (Target.ofName target)
    if isCode then
      let ss ← orFail (Statement.parseBlock (← contents files input))
      return t.block ss
    else
      let e ← orFail (Expr.parse .equation input)
      return t.expr e
  | simplify expr => orFail (Formulae.simplify expr)
  | dependencies path vars functions => do
    let code ← contents files path
    let d ← orFail (Dependencies.ofText (.ofList vars) (.ofList functions) code)
    return d.toJson.text
  | unit expr vars => do
    let env ← environment files vars
    return (← orFail (env.unitOfText expr)).text
  | isBool expr vars => do
    let env ← environment files vars
    return if ← orFail (env.isBooleanText expr) then "true" else "false"
  | value expr vars => do
    let env ← environment files vars
    return Number.text (← orFail (env.valueOfText expr))
  | inlining path functions => do
    let known ← orFail (Definition.parseAll (← contents files functions))
    let code ← contents files path
    orFail (inlineText known.values code)

/-- What a command line leaves behind: its exit code, and what it prints. -/
structure Outcome where
  exit : UInt32
  out : String := ""
  err : String := ""

def outcome [Closeness] [Draws] (files : Files) (c : Command) : Outcome :=
  match c.run files with
  | .ok text => { exit := 0, out := text ++ "\n" }
  | .error f => { exit := 1, err := "error: " ++ f.message ++ "\n" }

/-- The outcome of a command line that runs no command. -/
def noticeOutcome : Notice → Outcome
  | .misuse => { exit := 2, err := programUsage.help }
  | .version => { exit := 0, out := programName ++ " " ++ version ++ "\n" }
  | .help u => { exit := 0, out := u.help }

def pathsOf (args : List String) : List String :=
  match read args with
  | .ok c => c.paths
  | .error _ => []

def outcomeOf [Closeness] [Draws] (files : Files) (args : List String) : Outcome :=
  match read args with
  | .ok c => c.outcome files
  | .error n => noticeOutcome n

end Command

/-- The place of a double in the order of all doubles; both zeros have place zero. -/
def placeOf (x : Float) : Int :=
  let bits := x.toBits.toNat
  let signBit := Nat.pow 2 63
  if bits < signBit then bits else -((bits - signBit : Nat) : Int)

/-- Equal, at most `difference` apart, or at most `steps` doubles apart. -/
instance : Closeness where
  near difference steps x y :=
    x == y || (x - y).abs ≤ difference || (placeOf x - placeOf y).natAbs ≤ steps
  near_of_beq _ _ _ _ h := by simp [h]

/-- No command draws a number; functions that do are only asked for the unit of their result. -/
instance : Draws := .middle

end Formulae
