import Formulae.Syntax.Expr

namespace Formulae

/-- Which operators and words there are. -/
inductive Dialect where
  | equation
  | rendered
deriving DecidableEq, Repr

inductive Token where
  | defWord
  | returnWord
  | notWord
  /-- `and` and `or` -/
  | connective (op : BoolOp)
  | truth (value : Bool)
  /-- A word of the larger language that has no use here. -/
  | reserved (word : String)
  | op (op : BinaryOp)
  | cmp (op : CmpOp)
  | assign (op : AssignOp)
  /-- `&&` and `||`, which are rendered for the connectives. -/
  | doubled (op : BoolOp)
  /-- `&` and `|`, which are rendered for the connectives of arrays. -/
  | single (op : BoolOp)
  | bang
  | leftParen | rightParen
  | leftBracket | rightBracket
  | leftBrace | rightBrace
  | comma | colon | dot
  | ident (name : String)
  | number (literal : String)
deriving DecidableEq, Repr

namespace Token

/-- Words of the larger language that are not names, and that nothing here is written with. -/
def reservedWords : List String :=
  ["lambda", "if", "else", "elif", "for", "while", "in", "is", "None", "import", "from", "class",
    "pass", "yield", "with", "as", "del", "global", "nonlocal", "assert", "break", "continue",
    "try", "except", "finally", "raise", "async", "await"]

/-- The words that are tokens of their own in both dialects. -/
def keywords : List (String × Token) :=
  [("def", defWord), ("return", returnWord), ("and", connective .and), ("or", connective .or),
    ("not", notWord), ("True", truth true), ("False", truth false)]

/-- The words that only a rendered text writes. -/
def renderedKeywords : List (String × Token) :=
  [("true", truth true), ("false", truth false)]

def ofWord (d : Dialect) (word : String) : Token :=
  let known := match d with
    | .equation => keywords
    | .rendered => keywords ++ renderedKeywords
  match known.lookup word with
  | some t => t
  | none => if reservedWords.contains word then reserved word else ident word

/-- How the token is written; the truth values are written as in equations. -/
def spelling : Token → String
  | defWord => "def"
  | returnWord => "return"
  | notWord => "not"
  | connective o => o.word
  | truth true => "True"
  | truth false => "False"
  | reserved word => word
  | op o => o.symbol
  | cmp o => o.symbol
  | assign o => o.symbol
  | doubled .and => "&&"
  | doubled .or => "||"
  | single .and => "&"
  | single .or => "|"
  | bang => "!"
  | leftParen => "("
  | rightParen => ")"
  | leftBracket => "["
  | rightBracket => "]"
  | leftBrace => "\x7b"
  | rightBrace => "\x7d"
  | comma => ","
  | colon => ":"
  | dot => "."
  | ident name => name
  | number literal => literal

end Token

/-- A token and the bytes of the text that it was read from. -/
structure Lexeme where
  start : Nat
  stop : Nat
  token : Token
deriving DecidableEq, Repr

def Lexeme.span (l : Lexeme) : Span := .ofOffsets l.start l.stop

end Formulae
