import Formulae.Command.Usage

namespace Formulae

/-- What a command line comes to if no command runs. -/
inductive Notice where
  /-- Something is not used as it should be. -/
  | misuse
  | version
  | help (u : Usage)

/-- What has been read: the operand, switches without and with values, and what follows the operand
if that is the name of a command. -/
structure Arguments where
  operand : Option String := none
  flags : List String := []
  values : List (String × String) := []
  rest : List String := []

namespace Arguments

def valuesOf (a : Arguments) (name : String) : List String :=
  (a.values.filter (·.1 == name)).map (·.2)

def value? (a : Arguments) (name : String) : Option String := a.values.lookup name

def hasFlag (a : Arguments) (name : String) : Bool := a.flags.contains name

/-- Reads the operand, of which there is only one. -/
def setOperand (operand : Operand) (x : String) (a : Arguments) : Except Notice Arguments :=
  if a.operand.isSome || (operand.isPath && x.isEmpty) then .error .misuse
  else .ok { a with operand := some x }

def addValue (s : Switch) (x : String) (a : Arguments) : Except Notice Arguments :=
  let added := { a with values := a.values ++ [(s.long, x)] }
  match s.effect with
  | .value operand _ =>
    if (a.value? s.long).isSome || (operand.isPath && x.isEmpty) then .error .misuse
    else .ok added
  | .values operand => if operand.isPath && x.isEmpty then .error .misuse else .ok added
  | _ => .error .misuse

def addSwitch (u : Usage) (s : Switch) (a : Arguments) : Except Notice Arguments :=
  match s.effect with
  | .flag =>
    if a.hasFlag s.long then .error .misuse else .ok { a with flags := s.long :: a.flags }
  | .help => .error (.help u)
  | .version => .error .version
  | _ => .error .misuse

def isSwitch (arg : String) : Bool :=
  match arg.toList with
  | '-' :: _ :: _ => true
  | _ => false

/-- The text before the first equals sign, and the text behind it if there is one. -/
def splitEquals (cs : List Char) : String × Option String :=
  let name := cs.takeWhile (· != '=')
  let value := if name.length < cs.length then some (cs.drop (name.length + 1)) else none
  (.ofList name, value.map String.ofList)

/-- Reads a switch by its long name. What is left is the switch if its value is to follow. -/
def readLong (u : Usage) (cs : List Char) (a : Arguments) :
    Except Notice (Arguments × Option Switch) :=
  let (name, value) := splitEquals cs
  match u.switches.find? (·.long == name) with
  | none => .error .misuse
  | some s =>
    match s.operand?, value with
    | some _, none => .ok (a, some s)
    | some _, some x => (a.addValue s x).map (·, none)
    | none, none => (a.addSwitch u s).map (·, none)
    | none, some _ => .error .misuse

/-- Reads letters that are run together. What follows the letter of a switch that takes a value is
that value, perhaps with an equals sign before it; what is left is the switch if nothing follows. -/
def readLetters (u : Usage) : List Char → Arguments → Except Notice (Arguments × Option Switch)
  | [], a => .ok (a, none)
  | c :: cs, a =>
    match u.switches.find? (·.short == some c) with
    | none => .error .misuse
    | some s =>
      if s.operand?.isNone then do readLetters u cs (← a.addSwitch u s)
      else
        match cs with
        | [] => .ok (a, some s)
        | '=' :: ds => (a.addValue s (.ofList ds)).map (·, none)
        | ds => (a.addValue s (.ofList ds)).map (·, none)

def readSwitch (u : Usage) (arg : String) (a : Arguments) :
    Except Notice (Arguments × Option Switch) :=
  match arg.toList with
  | '-' :: '-' :: cs => readLong u cs a
  | cs => readLetters u (cs.drop 1) a

/-- Reads the arguments that follow those that have been read. The name of a command ends them. -/
def read (u : Usage) : List String → Arguments → Except Notice Arguments
  | [], a => .ok a
  | arg :: args, a =>
    if arg = "--" then
      if u.commands.isEmpty then args.foldlM (fun a x => a.setOperand u.operand x) a
      else .error .misuse
    else if isSwitch arg then do
      let (a, waiting) ← readSwitch u arg a
      match waiting, args with
      | none, args => read u args a
      | some _, [] => .error .misuse
      | some s, x :: args =>
        if isSwitch x then .error .misuse else read u args (← a.addValue s x)
    else if u.commands.isEmpty then do read u args (← a.setOperand u.operand arg)
    else .ok { a with operand := some arg, rest := args }

end Arguments

end Formulae
