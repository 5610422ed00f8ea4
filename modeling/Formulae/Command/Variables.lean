import Formulae.Fault
import Formulae.Builtins
import Formulae.Json.Basic
import Formulae.Json.Read
import Formulae.Units.Context

namespace Formulae

/-- Why a file cannot be read. -/
inductive ReadFailure where
  | missing
  | denied
  | notDirectory
  | directory
  | notText
  | other (message : String)
deriving DecidableEq, Repr

def ReadFailure.message : ReadFailure → String
  | missing => "No such file or directory (os error 2)"
  | denied => "Permission denied (os error 13)"
  | notDirectory => "Not a directory (os error 20)"
  | directory => "Is a directory (os error 21)"
  | notText => "stream did not contain valid UTF-8"
  | other message => message

/-- Why a command fails. -/
inductive Failure where
  | fault (f : Fault)
  | reading (path : String) (why : ReadFailure)
  | unitOf (variableName : String) (f : Fault)
  | badDescription
deriving DecidableEq, Repr

def Failure.message : Failure → String
  | fault f => f.message
  | reading path why => "reading " ++ path ++ ": " ++ why.message
  | unitOf name f => "unit of '" ++ name ++ "': " ++ f.message
  | badDescription => "the file of variables does not describe variables"

/-- A variable as it is described, with the text of its unit. -/
structure Description where
  unit : String
  isBool : Bool
  constant : Bool
  scalar : Bool
  value : Option Float

namespace Description

/-- The members of a description, in the order of a list. -/
def memberNames : List String := ["unit", "is_bool", "constant", "scalar", "value"]

def string? : Json → Option String
  | .string codes => textOf? codes
  | _ => none

def bool? : Json → Option Bool
  | .bool b => some b
  | _ => none

/-- A number, or nothing if there is `null` instead. -/
def number? : Json → Option (Option Float)
  | .null => some none
  | .number n => n.toFloat?.map some
  | _ => none

/-- The member of a name, of which there may be only one, or the default if there is none. -/
def member {α : Type} (members : List (String × Json)) (name : String) (read? : Json → Option α)
    (absent : α) : Option α :=
  match members.filter (·.1 == name) with
  | [] => some absent
  | [(_, j)] => read? j
  | _ => none

/-- The description that members make up. -/
def ofMembers (members : List (String × Json)) : Option Description := do
  let unit ← member members "unit" string? "1"
  let isBool ← member members "is_bool" bool? false
  let constant ← member members "constant" bool? false
  let scalar ← member members "scalar" bool? false
  let value ← member members "value" number? none
  return { unit, isBool, constant, scalar, value }

def named? (members : List (CodePoints × Json)) : Option (List (String × Json)) :=
  members.mapM fun m => (textOf? m.1).map (·, m.2)

def ofJson : Json → Option Description
  | .object members => (named? members).bind ofMembers
  | .array xs => if xs.length ≤ memberNames.length then ofMembers (memberNames.zip xs) else none
  | _ => none

/-- The variable, if its unit is one. -/
def toVariable (name : String) (d : Description) : Except Failure Variable :=
  match Units.si.parse d.unit with
  | .ok unit =>
    .ok { unit, isBool := d.isBool, constant := d.constant, scalar := d.scalar, value := d.value }
  | .error f => .error (.unitOf name f)

end Description

/-- The descriptions in a file of variables; of several for one name the last counts. -/
def descriptions? : Json → Option (Table Description)
  | .object members => do
    let named ← Description.named? members
    return .ofList (← named.mapM fun m => (Description.ofJson m.2).map (m.1, ·))
  | _ => none

/-- The builtin functions, and the variables that a text describes. -/
def Environment.ofText [Draws] (text : String) : Except Failure Environment :=
  match (Json.read? text).bind descriptions? with
  | none => .error .badDescription
  | some table => do
    let vars ← table.toList.mapM fun e => (e.2.toVariable e.1).map (e.1, ·)
    return { Environment.builtin with vars := .ofList vars }

end Formulae
