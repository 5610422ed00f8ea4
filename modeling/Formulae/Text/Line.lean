import Formulae.Text.Character

namespace Formulae.Text

def trim (cs : List Char) : List Char :=
  ((cs.dropWhile isWhiteSpace).reverse.dropWhile isWhiteSpace).reverse

/-- A line that is empty or a comment, but for white space. -/
def isBlank (line : List Char) : Bool :=
  match trim line with
  | [] => true
  | c :: _ => c == '#'

def lines : List Char → List (List Char)
  | [] => []
  | '\r' :: '\n' :: cs => [] :: lines cs
  | '\n' :: cs => [] :: lines cs
  | c :: cs =>
    match lines cs with
    | [] => [[c]]
    | l :: ls => (c :: l) :: ls

/-- The lines with a newline between each two. -/
def unlines (ls : List (List Char)) : List Char :=
  ['\n'].intercalate ls

/-- Only blanks and tabs indent a line; other white space is left for the lexer. -/
def indents (c : Char) : Bool :=
  c == ' ' || c == '\t'

def indentation (line : List Char) : Nat :=
  (line.takeWhile indents).length

/-- The least indentation of the lines that are not blank. -/
def sharedIndentation (ls : List (List Char)) : Nat :=
  ((ls.filter (!isBlank ·)).map indentation).min?.getD 0

/-- The text with its shared indentation taken off. -/
def deindent (cs : List Char) : List Char :=
  let ls := lines cs
  let shared := sharedIndentation ls
  unlines (ls.map fun l => if isBlank l then [] else l.drop shared)

/-- The text that follows the first `n` bytes of its UTF-8 form. -/
def dropBytes (n : Nat) : List Char → List Char
  | [] => []
  | c :: cs => if n = 0 then c :: cs else dropBytes (n - c.utf8Size) cs

def byteCount : List Char → Nat
  | [] => 0
  | c :: cs => c.utf8Size + byteCount cs

@[simp] theorem byteCount_nil : byteCount [] = 0 := rfl

@[simp] theorem byteCount_cons (c : Char) (cs : List Char) :
    byteCount (c :: cs) = c.utf8Size + byteCount cs := rfl

@[simp] theorem byteCount_append (cs ds : List Char) :
    byteCount (cs ++ ds) = byteCount cs + byteCount ds := by
  induction cs with
  | nil => simp
  | cons c cs ih => simp [ih, Nat.add_assoc]

theorem dropBytes_append (cs ds : List Char) : dropBytes (byteCount cs) (cs ++ ds) = ds := by
  induction cs with
  | nil => cases ds <;> simp [dropBytes]
  | cons c cs ih =>
    have h := c.utf8Size_pos
    rw [List.cons_append, byteCount_cons, dropBytes, if_neg (by omega), Nat.add_sub_cancel_left, ih]

end Formulae.Text
