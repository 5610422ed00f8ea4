import Formulae.Number.Basic

namespace Formulae

inductive BinaryOp where
  | add | sub | mul | div | mod | pow
deriving DecidableEq, Repr

inductive UnaryOp where
  | pos | neg | not
deriving DecidableEq, Repr

/-- Comparisons, which may be chained. -/
inductive CmpOp where
  | lt | le | gt | ge | eq | ne
deriving DecidableEq, Repr

inductive BoolOp where
  | and | or
deriving DecidableEq, Repr

namespace BinaryOp

def symbol : BinaryOp → String
  | add => "+"
  | sub => "-"
  | mul => "*"
  | div => "/"
  | mod => "%"
  | pow => "**"

/-- How tightly the operator binds; tighter is higher. -/
def precedence : BinaryOp → Nat
  | add | sub => 5
  | mul | div | mod => 6
  | pow => 8

/-- The remainder of a division takes the sign of the dividend. -/
def apply : BinaryOp → Float → Float → Float
  | add, x, y => x + y
  | sub, x, y => x - y
  | mul, x, y => x * y
  | div, x, y => x / y
  | mod, x, y => Number.remainder x y
  | pow, x, y => x.pow y

end BinaryOp

namespace UnaryOp

/-- The word or sign before the operand; a word is set apart by a space. -/
def sign : UnaryOp → String
  | pos => "+"
  | neg => "-"
  | not => "not "

end UnaryOp

namespace CmpOp

def symbol : CmpOp → String
  | lt => "<"
  | le => "<="
  | gt => ">"
  | ge => ">="
  | eq => "=="
  | ne => "!="

/-- The comparison that holds of two numbers exactly if this one does not. -/
def negate : CmpOp → CmpOp
  | lt => ge
  | le => gt
  | gt => le
  | ge => lt
  | eq => ne
  | ne => eq

/-- A number compares with one that is not a number only as different. -/
def holds : CmpOp → Float → Float → Bool
  | lt, x, y => x < y
  | le, x, y => x ≤ y
  | gt, x, y => y < x
  | ge, x, y => y ≤ x
  | eq, x, y => x == y
  | ne, x, y => x != y

@[simp] theorem negate_negate (op : CmpOp) : op.negate.negate = op := by
  cases op <;> rfl

end CmpOp

namespace BoolOp

def word : BoolOp → String
  | and => "and"
  | or => "or"

def precedence : BoolOp → Nat
  | or => 1
  | and => 2

/-- The truth value that leaves the other operands to decide. -/
def identity : BoolOp → Bool
  | and => true
  | or => false

end BoolOp

end Formulae
