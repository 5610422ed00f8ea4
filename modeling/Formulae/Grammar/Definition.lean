import Formulae.Definition
import Formulae.Grammar.Block

namespace Formulae.Grammar

open Text

/-- Refuses a parameter that has one of the names in `before`. -/
def freshParameter (function : String) (before : List String) (x : String) (span : Span) :
    Except Fault Unit :=
  if x ∈ before then .error (.located (.duplicateParameter x function) span) else .ok ()

/-- The parameters of `function` behind those in `before`, and perhaps a comma after the last. -/
def parameters (stop : Nat) (function : String) (before : List String) : Parser (List String)
  | [] => .error (unexpected stop [])
  | l :: ts =>
    match l.token with
    | .rightParen => .ok ([], l :: ts)
    | .op .mul => .error (faultAt stop (.unsupportedInDefinition .variadic) (l :: ts))
    | .op .pow => .error (faultAt stop (.unsupportedInDefinition .keywordVariadic) (l :: ts))
    | .ident x =>
      match ts with
      | [] => do
        freshParameter function before x l.span
        return ([x], [])
      | m :: rest =>
        match m.token with
        | .assign .set => .error (faultAt stop (.unsupportedInDefinition .defaultValue) (m :: rest))
        | .colon => .error (faultAt stop (.unsupportedInDefinition .annotatedParameter) (m :: rest))
        | .comma => do
          freshParameter function before x l.span
          let (xs, rest) ← parameters stop function (before ++ [x]) rest
          return (x :: xs, rest)
        | _ => do
          freshParameter function before x l.span
          return ([x], m :: rest)
    | _ => .error (unexpected stop (l :: ts))

/-- What stands before the body, and where the body begins on the line. -/
structure Header where
  name : String
  params : List String
  stop : Nat

/-- The word `def`, a name, parameters in parentheses, and a colon. -/
def header (stop : Nat) : List Lexeme → Except Fault Header
  | ⟨_, _, .defWord⟩ :: ts =>
    match ts with
    | ⟨_, _, .ident f⟩ :: ts =>
      match ts with
      | ⟨_, _, .leftParen⟩ :: ts => do
        let (params, rest) ← parameters stop f [] ts
        match rest with
        | ⟨_, _, .rightParen⟩ :: rest =>
          match rest with
          | ⟨_, _, .op .sub⟩ :: _ =>
            .error (faultAt stop (.unsupportedInDefinition .annotatedResult) rest)
          | ⟨_, close, .colon⟩ :: _ => return ⟨f, params, close⟩
          | _ => .error (unexpected stop rest)
        | _ => .error (unexpected stop rest)
      | _ => .error (unexpected stop ts)
    | _ => .error (unexpected stop ts)
  | ts => .error (unexpected stop ts)

/-- A line of a body: an assignment, or `return` and perhaps an expression. -/
inductive BodyLine where
  | statement (s : Statement)
  | result (value : Option Expr)

def bodyLine (line : List Char) : Except Fault BodyLine := do
  let ts ← Token.lexemes .equation line
  let stop := stopOf ts
  match ts with
  | [⟨_, _, .returnWord⟩] => return .result none
  | ⟨_, _, .returnWord⟩ :: ts => return .result (some (← wholeExpression stop ts))
  | ⟨_, _, .defWord⟩ :: _ => .error (faultAt stop (.unsupportedInDefinition .nestedFunction) ts)
  | ⟨_, _, .reserved word⟩ :: _ =>
    .error (faultAt stop (.unsupportedInDefinition (.wordStatement word)) ts)
  | _ => return .statement (← statement stop ts)

/-- A definition whose body has been read line by line. -/
structure Outline where
  name : String
  params : List String
  body : List BodyLine

/-- The word `def` and white space. -/
def startsDefinition : List Char → Bool
  | 'd' :: 'e' :: 'f' :: c :: _ => isWhiteSpace c
  | _ => false

/-- May the line stand in a body? -/
def continuesBody (line : List Char) : Bool :=
  isBlank line || 0 < indentation line

/-- The lines of a body that are not blank; the first line has the given number. -/
def bodyLines : (number : Nat) → List (List Char) → Except Fault (List BodyLine)
  | _, [] => .ok []
  | number, line :: ls =>
    if isBlank line then bodyLines (number + 1) ls
    else do
      let first ← onLine number line (bodyLine line)
      return first :: (← bodyLines (number + 1) ls)

/-- The part of a definition that is on its first line. -/
def firstLine (line : List Char) : Except Fault Outline := do
  let ts ← Token.lexemes .equation line
  let h ← header (stopOf ts) ts
  let rest := dropBytes h.stop line
  if isBlank rest then return ⟨h.name, h.params, []⟩
  else return ⟨h.name, h.params, [← bodyLine rest]⟩

/-- The definitions on the given lines; the first line has the given number. -/
def outlines : (number : Nat) → List (List Char) → Except Fault (List Outline)
  | _, [] => .ok []
  | number, line :: ls =>
    if startsDefinition line then do
      let o ← onLine number line (firstLine line)
      let below ← bodyLines (number + 1) (ls.takeWhile continuesBody)
      return { o with body := o.body ++ below } :: (← outlines (number + 1) ls)
    else outlines (number + 1) ls

/-- The statements of a body and its result, if nothing follows the result. -/
def splitBody : List BodyLine → Option (List Statement × Option Expr)
  | [] => some ([], none)
  | [.result e] => some ([], e)
  | .result _ :: _ => none
  | .statement s :: ls => (splitBody ls).map fun (ss, e) => (s :: ss, e)

/-- The definition, if it has a body and nothing follows the result. -/
def Outline.definition (o : Outline) : Except Fault Definition :=
  if o.body.isEmpty then .error { reason := .emptyBody o.name }
  else
    match splitBody o.body with
    | some (body, result) => .ok ⟨o.name, o.params, body, result⟩
    | none => .error { reason := .codeAfterReturn o.name }

/-- The outlines of the definitions in a source text. -/
def outlinesOfText (source : String) : Except Fault (List Outline) :=
  outlines 1 (lines (deindent source.toList))

end Formulae.Grammar

namespace Formulae

def Definition.parse (source : String) : Except Fault Definition := do
  match ← Grammar.outlinesOfText source with
  | [o] => o.definition
  | os => .error { reason := .notOneDefinition os.length }

/-- All definitions in a source text, by name. -/
def Definition.parseAll (source : String) : Except Fault (Table Definition) := do
  let ds ← (← Grammar.outlinesOfText source).mapM fun o => o.definition
  return .ofDefinitions ds

end Formulae
