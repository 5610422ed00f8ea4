import Formulae.Fault
import Formulae.Text.Character
import Formulae.Text.Line
import Formulae.Token

namespace Formulae.Token

open Text

/-- Operators and brackets, none of which stands behind one that it begins with. -/
def symbols (d : Dialect) : List Token :=
  let common : List Token :=
    [assign (.update .pow), assign (.update .add), assign (.update .sub), assign (.update .mul),
      assign (.update .div), assign (.update .mod), op .pow, cmp .eq, cmp .le, cmp .ge, cmp .ne,
      op .add, op .sub, op .mul, op .div, op .mod, assign .set, cmp .lt, cmp .gt, leftParen,
      rightParen, leftBracket, rightBracket, leftBrace, rightBrace, comma, colon]
  match d with
  | .equation => common
  | .rendered => common ++ [doubled .and, doubled .or, single .and, single .or, bang]

/-- The longest operator or bracket that the text begins with. -/
def symbol? (d : Dialect) (cs : List Char) : Option Token :=
  (symbols d).find? fun t => t.spelling.toList.isPrefixOf cs

/-- The decimal digits, of any script, that the text begins with. -/
def digits (cs : List Char) : List Char := cs.takeWhile isDecimalDigit

/-- Digits and at most one point; without digits before the point there are some behind it. -/
def mantissa (cs : List Char) : List Char :=
  match digits cs with
  | [] => '.' :: digits (cs.drop 1)
  | ds =>
    match cs.drop ds.length with
    | '.' :: rest => ds ++ '.' :: digits rest
    | _ => ds

/-- The letter `e`, a sign and digits; nothing if there are no digits. -/
def power : List Char → List Char
  | c :: cs =>
    if c == 'e' || c == 'E' then
      let sign := match cs with
        | '+' :: _ => ['+']
        | '-' :: _ => ['-']
        | _ => []
      match digits (cs.drop sign.length) with
      | [] => []
      | ds => c :: sign ++ ds
    else []
  | [] => []

/-- The number that the text begins with, as long as it can be. -/
def literal (cs : List Char) : List Char :=
  let m := mantissa cs
  m ++ power (cs.drop m.length)

def startsNumber : List Char → Bool
  | '.' :: c :: _ => c.isDigit
  | c :: _ => c.isDigit
  | [] => false

/-- What begins at some place of a text: a token or a fault or neither, and how many more
characters than one belong to it. -/
structure Item where
  found : Option (Except Fault Lexeme)
  more : Nat

/-- The item that begins with `c`, which is `pos` bytes into the text and has `cs` behind it. -/
def scan (d : Dialect) (pos : Nat) (c : Char) (cs : List Char) : Item :=
  let fault (reason : Reason) (width : Nat) : Item :=
    ⟨some (.error (.located reason (.ofOffsets pos (pos + width)))), 0⟩
  match symbol? d (c :: cs) with
  | some t =>
    let width := t.spelling.length
    ⟨some (.ok ⟨pos, pos + width, t⟩), width - 1⟩
  | none =>
    if c == '!' then fault .strayCharacter 1
    else if c == '#' then ⟨none, (cs.takeWhile (· != '\n')).length⟩
    else if startsNumber (c :: cs) then
      let text := literal (c :: cs)
      let width := byteCount text
      ⟨some (.ok ⟨pos, pos + width, number (.ofList text)⟩), width - 1⟩
    else if c == '.' then ⟨some (.ok ⟨pos, pos + 1, dot⟩), 0⟩
    else if isIdentStart c then
      let text := c :: cs.takeWhile isIdentContinue
      ⟨some (.ok ⟨pos, pos + byteCount text, ofWord d (.ofList text)⟩), text.length - 1⟩
    else if c == '\n' || c == '\r' then fault .lineBreak 1
    else if isWhiteSpace c then ⟨none, 0⟩
    else fault .invalidCharacter c.utf8Size

/-- The items of a text that is `pos` bytes into a longer one, after `skip` characters that belong
to the item before. -/
def lexFrom (d : Dialect) : (skip pos : Nat) → List Char → List (Except Fault Lexeme)
  | _, _, [] => []
  | skip + 1, pos, c :: cs => lexFrom d skip (pos + c.utf8Size) cs
  | 0, pos, c :: cs =>
    let item := scan d pos c cs
    let rest := lexFrom d item.more (pos + c.utf8Size) cs
    match item.found with
    | some x => x :: rest
    | none => rest

def lex (d : Dialect) (cs : List Char) : List (Except Fault Lexeme) :=
  lexFrom d 0 0 cs

/-- The tokens, if there is no fault; else the first fault. -/
def collect : List (Except Fault Lexeme) → Except Fault (List Lexeme)
  | [] => .ok []
  | .error f :: _ => .error f
  | .ok l :: xs => (collect xs).map (l :: ·)

def lexemes (d : Dialect) (cs : List Char) : Except Fault (List Lexeme) :=
  collect (lex d cs)

end Formulae.Token
