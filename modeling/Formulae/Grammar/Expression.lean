import Formulae.Token.Lexer
import Formulae.Number.Basic

namespace Formulae.Grammar

/-- Reads a value and leaves the lexemes behind it, or finds a fault. -/
abbrev Parser (α : Type) := List Lexeme → Except Fault (α × List Lexeme)

/-- The fault `reason` at the front of `ts`. -/
def faultAt (stop : Nat) (reason : Reason) : List Lexeme → Fault
  | [] => .located reason (.ofOffsets stop (stop + 1))
  | l :: _ => .located reason l.span

/-- The front of `ts` is not what was to come there. -/
def unexpected (stop : Nat) : List Lexeme → Fault
  | [] => faultAt stop .endOfText []
  | l :: ts => faultAt stop .unexpectedToken (l :: ts)

/-- Items that each follow a separator, as many as there are, but at most `bound`. -/
def chain {α ω : Type} (sep? : Token → Option ω) (item : Parser α) :
    (bound : Nat) → Parser (List (ω × α))
  | 0, ts => .ok ([], ts)
  | _ + 1, [] => .ok ([], [])
  | bound + 1, l :: ts =>
    match sep? l.token with
    | none => .ok ([], l :: ts)
    | some s => do
      let (a, rest) ← item ts
      let (more, rest) ← chain sep? item bound rest
      return ((s, a) :: more, rest)

def stopOf (ts : List Lexeme) : Nat :=
  match ts.getLast? with
  | some l => l.stop
  | none => 0

/-- From the start of the first operand to the stop of the last. -/
def chainSpan {ω : Type} (first : Expr) (more : List (ω × Expr)) : Span :=
  match more.getLast? with
  | none => first.span
  | some (_, e) => first.span.union e.span

/-- The operands of one connective, which is left out if there is only one operand. -/
def joined (op : BoolOp) (first : Expr) (more : List (BoolOp × Expr)) : Expr :=
  match more with
  | [] => first
  | _ :: _ => .logical op (first :: more.map (·.2)) (chainSpan first more)

/-- The operands of a chain of comparisons, if there are any comparisons. -/
def compared (first : Expr) (more : List (CmpOp × Expr)) : Expr :=
  match more with
  | [] => first
  | _ :: _ => .compare first more (chainSpan first more)

def between (op : BinaryOp) (left right : Expr) : Expr :=
  .binary op left right (left.span.union right.span)

/-- The words `and` and `or`, and `&&` and `||` for them. -/
def connective? (op : BoolOp) (t : Token) : Option BoolOp :=
  if t = .connective op ∨ t = .doubled op then some op else none

/-- The tighter connectives `&` and `|`. -/
def single? (op : BoolOp) (t : Token) : Option BoolOp :=
  if t = .single op then some op else none

def comparison? : Token → Option CmpOp
  | .cmp op => some op
  | _ => none

def additive? : Token → Option BinaryOp
  | .op .add => some .add
  | .op .sub => some .sub
  | _ => none

def multiplicative? : Token → Option BinaryOp
  | .op .mul => some .mul
  | .op .div => some .div
  | .op .mod => some .mod
  | _ => none

def sign? : Token → Option UnaryOp
  | .op .add => some .pos
  | .op .sub => some .neg
  | .bang => some .not
  | _ => none

def connected (op : BoolOp) (sep? : Token → Option BoolOp) (bound : Nat) (operand : Parser Expr) :
    Parser Expr := fun ts => do
  let (first, rest) ← operand ts
  let (more, rest) ← chain sep? operand bound rest
  return (joined op first more, rest)

def leftGrouped (op? : Token → Option BinaryOp) (bound : Nat) (operand : Parser Expr) :
    Parser Expr := fun ts => do
  let (first, rest) ← operand ts
  let (more, rest) ← chain op? operand bound rest
  return (more.foldl (fun left m => between m.1 left m.2) first, rest)

/-- A power, or a sign before another such factor. -/
def factor (stop : Nat) (primary : Parser Expr) : (bound : Nat) → Parser Expr
  | 0, ts => .error (unexpected stop ts)
  | _ + 1, [] => .error (unexpected stop [])
  | bound + 1, l :: ts =>
    match sign? l.token with
    | some op => do
      let (e, rest) ← factor stop primary bound ts
      return (.unary op e ⟨l.span.start, e.span.stop⟩, rest)
    | none => do
      let (base, rest) ← primary (l :: ts)
      match rest with
      | ⟨_, _, .op .pow⟩ :: rest => do
        let (exponent, rest) ← factor stop primary bound rest
        return (between .pow base exponent, rest)
      | _ => return (base, rest)

/-- Factors with `*`, `/` and `%` between them. -/
def term (stop : Nat) (primary : Parser Expr) (bound : Nat) : Parser Expr :=
  leftGrouped multiplicative? bound (factor stop primary bound)

/-- Terms with `+` and `-` between them. -/
def sum (stop : Nat) (primary : Parser Expr) (bound : Nat) : Parser Expr :=
  leftGrouped additive? bound (term stop primary bound)

/-- Sums with `&` between them, and those with `|` between them. -/
def bitwise (stop : Nat) (primary : Parser Expr) (bound : Nat) : Parser Expr :=
  connected .or (single? .or) bound (connected .and (single? .and) bound (sum stop primary bound))

/-- Operands with comparisons between them. Tests of membership and identity look like more of
them, and are refused. -/
def comparison (stop : Nat) (primary : Parser Expr) (bound : Nat) : Parser Expr := fun ts => do
  let (first, rest) ← bitwise stop primary bound ts
  let (more, rest) ← chain comparison? (bitwise stop primary bound) bound rest
  match rest with
  | ⟨_, _, .reserved word⟩ :: _ =>
    if word = "in" ∨ word = "is" then .error (faultAt stop (.unsupported .membershipTest) rest)
    else return (compared first more, rest)
  | _ => return (compared first more, rest)

/-- A comparison, with any number of `not` before it. -/
def negation (stop : Nat) (primary : Parser Expr) (bound : Nat) : Parser Expr
  | [] => comparison stop primary bound []
  | l :: ts =>
    match l.token with
    | .notWord => do
      let (e, rest) ← negation stop primary bound ts
      return (.unary .not e ⟨l.span.start, e.span.stop⟩, rest)
    | _ => comparison stop primary bound (l :: ts)

def conjunction (stop : Nat) (primary : Parser Expr) (bound : Nat) : Parser Expr :=
  connected .and (connective? .and) bound (negation stop primary bound)

def disjunction (stop : Nat) (primary : Parser Expr) (bound : Nat) : Parser Expr :=
  connected .or (connective? .or) bound (conjunction stop primary bound)

/-- Arguments with commas between them, and perhaps one after the last, up to a parenthesis. -/
def arguments (stop : Nat) (nested : Parser Expr) : (bound : Nat) → Parser (List Expr)
  | 0, ts => .ok ([], ts)
  | bound + 1, ts =>
    match ts with
    | ⟨_, _, .rightParen⟩ :: _ => .ok ([], ts)
    | ⟨_, _, .op .mul⟩ :: _ => .error (faultAt stop (.unsupported .starredArgument) ts)
    | ⟨_, _, .op .pow⟩ :: _ => .error (faultAt stop (.unsupported .starredArgument) ts)
    | ⟨_, _, .ident _⟩ :: ⟨_, _, .assign .set⟩ :: _ =>
      .error (faultAt stop (.unsupported .keywordArgument) ts)
    | _ => do
      let (e, rest) ← nested ts
      match rest with
      | ⟨_, _, .comma⟩ :: rest => do
        let (es, rest) ← arguments stop nested bound rest
        return (e :: es, rest)
      | ⟨_, _, .reserved "for"⟩ :: _ =>
        .error (faultAt stop (.unsupported .comprehension) rest)
      | _ => return ([e], rest)

/-- What follows an opening parenthesis `l`: an expression and a closing one. -/
def parenthesized (stop : Nat) (nested : Parser Expr) (l : Lexeme) : Parser Expr := fun ts =>
  match ts with
  | ⟨_, _, .rightParen⟩ :: _ => .error (faultAt stop (.unsupported .tuple) (l :: ts))
  | _ => do
    let (e, rest) ← nested ts
    match rest with
    | ⟨_, _, .rightParen⟩ :: rest => return (e, rest)
    | ⟨_, _, .comma⟩ :: _ => .error (faultAt stop (.unsupported .tuple) rest)
    | ⟨_, _, .reserved "for"⟩ :: _ => .error (faultAt stop (.unsupported .comprehension) rest)
    | _ => .error (unexpected stop rest)

def atom (stop : Nat) (nested : Parser Expr) : Parser Expr
  | [] => .error (unexpected stop [])
  | l :: ts =>
    match l.token with
    | .number s =>
      match Decimal.read? s.toList with
      | some d => .ok (.number s d.toFloat l.span, ts)
      | none => .error (.located .notANumber l.span)
    | .ident x => .ok (.var x l.span, ts)
    | .truth b => .ok (.bool b l.span, ts)
    | .leftParen => parenthesized stop nested l ts
    | .leftBracket | .leftBrace => .error (faultAt stop (.unsupported .collection) (l :: ts))
    | _ => .error (unexpected stop (l :: ts))

def callOrAtom (stop : Nat) (nested : Parser Expr) (bound : Nat) : Parser Expr
  | ⟨start, _, .ident f⟩ :: ⟨_, _, .leftParen⟩ :: ts => do
    let (args, rest) ← arguments stop nested bound ts
    match rest with
    | ⟨_, close, .rightParen⟩ :: rest => return (.call f args (.ofOffsets start close), rest)
    | _ => .error (unexpected stop rest)
  | ts => atom stop nested ts

/-- A call or an atom that is not followed by a bracket, a point or a parenthesis. -/
def primary (stop : Nat) (nested : Parser Expr) (bound : Nat) : Parser Expr := fun ts => do
  let (e, rest) ← callOrAtom stop nested bound ts
  match rest with
  | ⟨_, _, .leftBracket⟩ :: _ => .error (faultAt stop (.unsupported .subscript) rest)
  | ⟨_, _, .dot⟩ :: _ => .error (faultAt stop (.unsupported .attributeAccess) rest)
  | ⟨_, _, .leftParen⟩ :: _ => .error (faultAt stop (.unsupported .callOfResult) rest)
  | _ => return (e, rest)

/-- An expression whose parentheses nest less than `bound` deep. -/
def expression (stop : Nat) : (bound : Nat) → Parser Expr
  | 0, ts => .error (unexpected stop ts)
  | bound + 1, ts =>
    match ts with
    | ⟨_, _, .reserved "lambda"⟩ :: _ =>
      .error (faultAt stop (.unsupported .anonymousFunction) ts)
    | _ => disjunction stop (primary stop (expression stop bound) (bound + 1)) (bound + 1) ts

/-- An expression and nothing behind it. -/
def wholeExpression (stop : Nat) (ts : List Lexeme) : Except Fault Expr :=
  match ts with
  | [] => .error (.located .emptyExpression .zero)
  | _ => do
    let (e, rest) ← expression stop (ts.length + 1) ts
    match rest with
    | [] => return e
    | _ => .error (faultAt stop .extraToken rest)

end Formulae.Grammar

namespace Formulae

def Expr.parse (d : Dialect) (text : String) : Except Fault Expr := do
  let ts ← Token.lexemes d text.toList
  Grammar.wholeExpression (Grammar.stopOf ts) ts

end Formulae
