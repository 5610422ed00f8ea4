import Formulae.Grammar.Expression

namespace Formulae.Grammar

open Text

/-- A name, an assignment and an expression. -/
def statement (stop : Nat) : List Lexeme → Except Fault Statement
  | ⟨_, _, .ident x⟩ :: ts =>
    match ts with
    | ⟨_, _, .assign op⟩ :: ts => do
      let e ← wholeExpression stop ts
      return ⟨x, op, e⟩
    | ⟨_, _, .leftBracket⟩ :: _ => .error (faultAt stop (.unsupported .subscriptTarget) ts)
    | ⟨_, _, .dot⟩ :: _ => .error (faultAt stop (.unsupported .attributeTarget) ts)
    | _ => .error (unexpected stop ts)
  | ts => .error (unexpected stop ts)

def statementLine (line : List Char) : Except Fault Statement := do
  let ts ← Token.lexemes .equation line
  statement (stopOf ts) ts

/-- The result, with the line named if it is a fault. -/
def onLine {α : Type} (number : Nat) (line : List Char) (result : Except Fault α) :
    Except Fault α :=
  match result with
  | .ok a => .ok a
  | .error f => .error (f.onLine ⟨number, .ofList (trim line)⟩)

/-- The statements on the lines that are not blank; the first line has the given number. -/
def statementLines : (number : Nat) → List (List Char) → Except Fault (List Statement)
  | _, [] => .ok []
  | number, line :: ls =>
    if isBlank line then statementLines (number + 1) ls
    else do
      let s ← onLine number line (statementLine line)
      let more ← statementLines (number + 1) ls
      return s :: more

end Formulae.Grammar

namespace Formulae

def Statement.parse (line : String) : Except Fault Statement :=
  Grammar.statementLine line.toList

def Statement.parseBlock (code : String) : Except Fault (List Statement) :=
  Grammar.statementLines 1 (Text.lines (Text.deindent code.toList))

end Formulae
