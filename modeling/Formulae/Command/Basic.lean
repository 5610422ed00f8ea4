import Formulae.Command.Arguments

namespace Formulae

inductive Command where
  /-- The text of an expression, or of the code in a file, for a target. -/
  | render (target : String) (isCode : Bool) (input : String)
  | simplify (expr : String)
  /-- The names that the code in a file refers to. -/
  | dependencies (path : String) (vars functions : List String)
  | unit (expr : String) (vars : Option String)
  | isBool (expr : String) (vars : Option String)
  | value (expr : String) (vars : Option String)
  /-- The code in a file with the functions in another inlined. -/
  | inlining (path functions : String)
deriving DecidableEq, Repr

namespace Command

def programName : String := "simlin-codegen"

def version : String := "0.1.0"

/-- The flag that every command takes; it changes nothing that is printed. -/
def verbose : Switch :=
  { long := "verbose", short := some 'v',
    about := "log pipeline stages at debug level (RUST_LOG overrides this)" }

def askHelp : Switch :=
  { long := "help", short := some 'h', effect := .help, about := "Print help" }

def askVersion : Switch :=
  { long := "version", short := some 'V', effect := .version, about := "Print version" }

/-- The switch for a file of variables. -/
def varsFile : Switch :=
  { long := "vars", effect := .value ⟨"<VARS>", true⟩ false,
    about := "JSON file describing the variables" }

def analysisUsage (name about : String) (vars : Switch) : Usage :=
  { name, about, operand := ⟨"<EXPR>", false⟩, switches := [verbose, vars, askHelp] }

/-- How each command is used, with its switches in the order in which help lists them. -/
def usages : List Usage := [
  { name := "render"
    about := "Render an expression, or a file of statements, for a backend"
    operand := ⟨"<INPUT>", false⟩
    switches := [
      { long := "target", short := some 't', effect := .value ⟨"<TARGET>", false⟩ false,
        about := "plain, numpy, cpp or sympy [default: plain]" },
      verbose, { long := "code", about := "treat INPUT as a file of abstract code" }, askHelp] },
  { name := "simplify"
    about := "Print the canonical symbolic form of an expression"
    operand := ⟨"<EXPR>", false⟩
    switches := [verbose, askHelp] },
  { name := "deps"
    about := "Report the dependencies of a file of abstract code as JSON"
    operand := ⟨"<PATH>", true⟩
    switches := [
      { long := "known-vars", effect := .values ⟨"<KNOWN_VARS>", false⟩ }, verbose,
      { long := "known-funcs", effect := .values ⟨"<KNOWN_FUNCS>", false⟩ }, askHelp] },
  analysisUsage "units" "Print the unit of an expression" varsFile,
  analysisUsage "is-bool" "Print whether an expression is boolean" { varsFile with about := "" },
  analysisUsage "value" "Print the value of an expression over constants"
    { varsFile with about := "" },
  { name := "inline"
    about := "Inline calls of the functions defined in one file into the code in another"
    operand := ⟨"<PATH>", true⟩
    switches := [{ long := "functions", effect := .value ⟨"<FUNCTIONS>", true⟩ true }, verbose,
      askHelp] },
  { name := "help"
    about := "Print this message or the help of the given subcommand(s)"
    operand := ⟨"[COMMAND]...", false⟩
    aboutOperand := "Print help for the subcommand(s)"
    switches := [] }]

def programUsage : Usage :=
  { name := programName
    about := "Parse, analyze and render abstract code"
    operand := ⟨"<COMMAND>", false⟩
    commands := usages.map fun u => (u.name, u.about)
    switches := [verbose, askHelp, askVersion] }

/-- How the command of a name is used, called through the program. -/
def usageOf? (name : String) : Option Usage :=
  (usages.find? (·.name == name)).map fun u => { u with name := programName ++ " " ++ u.name }

/-- The list of names that the values of a switch make up, with commas between them. -/
def names (a : Arguments) (name : String) : List String :=
  (a.valuesOf name).flatMap fun value => value.splitOn ","

def ofArguments (name : String) (a : Arguments) : Option Command := do
  let x ← a.operand
  match name with
  | "render" => return render ((a.value? "target").getD "plain") (a.hasFlag "code") x
  | "simplify" => return simplify x
  | "deps" => return dependencies x (names a "known-vars") (names a "known-funcs")
  | "units" => return unit x (a.value? "vars")
  | "is-bool" => return isBool x (a.value? "vars")
  | "value" => return value x (a.value? "vars")
  | "inline" => return inlining x (← a.value? "functions")
  | _ => none

/-- The help that is asked for by the names of commands, one within another. -/
def helpOn : List String → Notice
  | [] => .help programUsage
  | [name] => ((usageOf? name).map Notice.help).getD .misuse
  | _ => .misuse

def read (args : List String) : Except Notice Command := do
  let outer ← Arguments.read programUsage args {}
  let name ← outer.operand.elim (.error .misuse) .ok
  if name = "help" then .error (helpOn outer.rest)
  else
    let u ← (usageOf? name).elim (.error .misuse) .ok
    (ofArguments name (← Arguments.read u outer.rest {})).elim (.error .misuse) .ok

end Command

end Formulae
