import Formulae.Grammar.Block

namespace Formulae

/-- The names in a block, by what is done with them and by what is known beforehand. -/
structure Dependencies where
  all : Names
  read : Names
  written : Names
  called : Names
  knownAll : Names
  knownRead : Names
  knownWritten : Names
  knownCalled : Names
  unknownRead : Names
  unknownWritten : Names
  unknownCalled : Names
  /-- Read before anything defined them. -/
  undefinedRead : Names
  /-- Neither known nor read before they are assigned to. -/
  newlyDefined : Names

namespace Statement

def readBy : List Statement → Names
  | [] => ∅
  | s :: ss => s.reads ∪ readBy ss

def writtenBy (ss : List Statement) : Names :=
  .ofList (ss.map (·.target))

def calledBy : List Statement → Names
  | [] => ∅
  | s :: ss => s.value.functions ∪ calledBy ss

/-- The names that statements read while they are not in `defined` nor assigned to before. -/
def undefinedReads (defined : Names) : List Statement → Names
  | [] => ∅
  | s :: ss => (s.reads \ defined) ∪ undefinedReads (defined.insert s.target) ss

end Statement

namespace Dependencies

/-- The names of a block, given which variables and functions are known. -/
def ofStatements (vars functions : Names) (ss : List Statement) : Dependencies :=
  let read := Statement.readBy ss
  let written := Statement.writtenBy ss
  let called := Statement.calledBy ss
  let all := read ∪ written ∪ called
  let undefinedRead := Statement.undefinedReads vars ss
  { all
    read
    written
    called
    knownAll := all ∩ (vars ∪ functions)
    knownRead := read ∩ vars
    knownWritten := written ∩ vars
    knownCalled := called ∩ functions
    unknownRead := read \ vars
    unknownWritten := written \ vars
    unknownCalled := called \ functions
    undefinedRead
    newlyDefined := (written \ vars) \ undefinedRead }

def ofText (vars functions : Names) (code : String) : Except Fault Dependencies := do
  return ofStatements vars functions (← Statement.parseBlock code)

end Dependencies

end Formulae
