
namespace Formulae

/-- A value that is given, or an operand, as help shows it. A path must not be empty. -/
structure Operand where
  shown : String
  isPath : Bool := false

/-- What a switch does. Asking for help or for the version ends the reading of a command line. -/
inductive Switch.Effect where
  | flag
  /-- A value that can be given only once. -/
  | value (operand : Operand) (isRequired : Bool)
  /-- Values that add up. -/
  | values (operand : Operand)
  | help
  | version

structure Switch where
  long : String
  short : Option Char := none
  effect : Switch.Effect := .flag
  about : String := ""

/-- How a command is used. There is one operand; it may be the name of another command. -/
structure Usage where
  name : String
  about : String
  operand : Operand
  aboutOperand : String := ""
  /-- The names that the operand may be, and what they are about; none if it is not a name. -/
  commands : List (String × String) := []
  switches : List Switch

namespace Switch

def operand? (s : Switch) : Option Operand :=
  match s.effect with
  | .value operand _ => some operand
  | .values operand => some operand
  | _ => none

def isRequired (s : Switch) : Bool :=
  match s.effect with
  | .value _ isRequired => isRequired
  | _ => false

/-- May the switch be given to a command that then runs? -/
def isOption (s : Switch) : Bool :=
  match s.effect with
  | .flag => true
  | .value _ isRequired => !isRequired
  | .values _ => true
  | _ => false

def longText (s : Switch) : String :=
  match s.operand? with
  | some operand => "--" ++ s.long ++ " " ++ operand.shown
  | none => "--" ++ s.long

/-- A switch by its names, with its value. The long names of all switches are in one column. -/
def text (s : Switch) : String :=
  match s.short with
  | some c => String.ofList ['-', c, ',', ' '] ++ s.longText
  | none => "    " ++ s.longText

end Switch

namespace Usage

/-- Two columns. Where the left one takes more than 28 characters and a text on the right does not
fit into 100 with it, the texts on the right have lines of their own. -/
def columns (rows : List (String × String)) : List String :=
  let width := (rows.map (·.1.length)).foldl max 2
  let apart := 28 < width && rows.any fun row => 88 < width + row.2.length
  rows.map fun (left, right) =>
    if apart then "  " ++ left ++ "\n          " ++ right
    else "  " ++ left ++ "".pushn ' ' (width + 2 - left.length) ++ right

/-- A heading and what is under it; nothing if that is nothing. -/
def listing (heading : String) (rows : List (String × String)) : List String :=
  if rows.isEmpty then [] else ["\n".intercalate ((heading ++ ":") :: columns rows)]

def line (u : Usage) : String :=
  let options := if u.switches.any Switch.isOption then ["[OPTIONS]"] else []
  let required := (u.switches.filter Switch.isRequired).map Switch.longText
  " ".intercalate ("Usage:" :: u.name :: options ++ required ++ [u.operand.shown])

def help (u : Usage) : String :=
  let operands :=
    if u.commands.isEmpty then listing "Arguments" [(u.operand.shown, u.aboutOperand)]
    else listing "Commands" u.commands
  let switches := listing "Options" (u.switches.map fun s => (s.text, s.about))
  "\n\n".intercalate (u.about :: u.line :: operands ++ switches) ++ "\n"

end Usage

end Formulae
