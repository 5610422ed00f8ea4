import Formulae.Number.Basic
import Formulae.Token

namespace Formulae

/-- The token is neither a name nor a number. -/
structure Token.IsFixed (t : Token) : Prop where
  ne_ident : ∀ x, t ≠ .ident x
  ne_number : ∀ s, t ≠ .number s

end Formulae

namespace Formulae.Grammar
set_option autoImplicit true

/-- The levels of the grammar, from the loosest to the tightest. -/
inductive Level where
  | disjunction | conjunction | negation | comparison | singleOr | singleAnd | sum | term | factor
  | power | application | atom
deriving DecidableEq, Repr

namespace Level

/-- The level that the operands of a level belong to. -/
def operand? : Level → Option Level
  | disjunction => some conjunction
  | conjunction => some negation
  | negation => some comparison
  | comparison => some singleOr
  | singleOr => some singleAnd
  | singleAnd => some sum
  | sum => some term
  | term => some factor
  | factor => some power
  | power => some application
  | application => some atom
  | atom => none

def depth : Level → Nat
  | disjunction => 0
  | conjunction => 1
  | negation => 2
  | comparison => 3
  | singleOr => 4
  | singleAnd => 5
  | sum => 6
  | term => 7
  | factor => 8
  | power => 9
  | application => 10
  | atom => 11

theorem depth_lt (l : Level) : l.depth < 12 := by
  cases l <;> decide

theorem depth_injective {l m : Level} (h : l.depth = m.depth) : l = m := by
  cases l <;> cases m <;> first | rfl | cases h

theorem operand_of_depth_lt {l m : Level} (h : l.depth < m.depth) :
    ∃ k, l.operand? = some k ∧ k.depth = l.depth + 1 := by
  cases l <;> first
    | exact ⟨_, rfl, rfl⟩
    | cases m <;> simp [depth] at h

end Level

/-- Some tokens and the tree that they are read as. -/
structure Part where
  tokens : List Token
  tree : Expr

/-- A further operand of a chain, and the operator before it with its token. -/
structure Link (ω : Type) extends Part where
  sep : Token
  op : ω

def linkTokens (links : List (Link ω)) : List Token :=
  links.flatMap fun x => x.sep :: x.tokens

/-- The tokens of arguments: a comma between each two, and perhaps one behind the last. -/
def argumentTokens (trailing : Bool) : List Part → List Token
  | [] => []
  | [a] => if trailing then a.tokens ++ [.comma] else a.tokens
  | a :: b :: as => a.tokens ++ .comma :: argumentTokens trailing (b :: as)

theorem mem_linkTokens {links : List (Link ω)} :
    t ∈ linkTokens links ↔ ∃ x ∈ links, t = x.sep ∨ t ∈ x.tokens := by
  simp only [linkTokens, List.mem_flatMap, List.mem_cons]

theorem mem_of_argumentTokens {args : List Part} (h : t ∈ argumentTokens trailing args) :
    t = .comma ∨ ∃ a ∈ args, t ∈ a.tokens := by
  fun_induction argumentTokens trailing args with
  | case1 => cases h
  | case2 a _ => simpa [or_comm] using h
  | case3 a _ => exact .inr ⟨a, List.mem_cons_self, h⟩
  | case4 a b as ih =>
    rcases List.mem_append.1 h with h | h
    · exact .inr ⟨a, List.mem_cons_self, h⟩
    · rcases List.mem_cons.1 h with h | h
      · exact .inl h
      · exact (ih h).imp_right fun ⟨c, hc, h⟩ => ⟨c, List.mem_cons_of_mem _ hc, h⟩

/-- A connective is a word, in rendered texts also a doubled sign. -/
inductive Connects (d : Dialect) (op : BoolOp) : Token → BoolOp → Prop
  | word : Connects d op (.connective op) op
  | doubled : d = .rendered → Connects d op (.doubled op) op

theorem Connects.isFixed (h : Connects d op t o) : t.IsFixed := by
  cases h <;> exact ⟨nofun, nofun⟩

/-- The tighter connective is a single sign, in rendered texts only. -/
inductive ConnectsSingly (d : Dialect) (op : BoolOp) : Token → BoolOp → Prop
  | single : d = .rendered → ConnectsSingly d op (.single op) op

theorem ConnectsSingly.isFixed (h : ConnectsSingly d op t o) : t.IsFixed := by
  cases h
  exact ⟨nofun, nofun⟩

inductive Compares : Token → CmpOp → Prop
  | cmp : Compares (.cmp op) op

theorem Compares.isFixed (h : Compares t o) : t.IsFixed := by
  cases h
  exact ⟨nofun, nofun⟩

inductive Adds : BinaryOp → Prop
  | add : Adds .add
  | sub : Adds .sub

inductive Multiplies : BinaryOp → Prop
  | mul : Multiplies .mul
  | div : Multiplies .div
  | mod : Multiplies .mod

/-- The signs before a factor; in rendered texts a negation may be one of them. -/
inductive Signs (d : Dialect) : Token → UnaryOp → Prop
  | pos : Signs d (.op .add) .pos
  | neg : Signs d (.op .sub) .neg
  | not : d = .rendered → Signs d .bang .not

theorem Signs.isFixed (h : Signs d t o) : t.IsFixed := by
  cases h <;> exact ⟨nofun, nofun⟩

/-- The tokens are read as the tree at a level. A chain of one connective or of comparisons is a
single node; sums and terms group to the left, powers to the right. -/
inductive Derives (d : Dialect) : Level → List Token → Expr → Prop
  | operand : l.operand? = some m → Derives d m ts e → Derives d l ts e
  | or {links : List (Link BoolOp)} : Derives d .conjunction ts e → links ≠ [] →
      (∀ x ∈ links, Connects d .or x.sep x.op) →
      (∀ x ∈ links, Derives d .conjunction x.tokens x.tree) →
      Derives d .disjunction (ts ++ linkTokens links)
        (.logical .or (e :: links.map (·.tree)) .zero)
  | and {links : List (Link BoolOp)} : Derives d .negation ts e → links ≠ [] →
      (∀ x ∈ links, Connects d .and x.sep x.op) →
      (∀ x ∈ links, Derives d .negation x.tokens x.tree) →
      Derives d .conjunction (ts ++ linkTokens links)
        (.logical .and (e :: links.map (·.tree)) .zero)
  | not : Derives d .negation ts e → Derives d .negation (.notWord :: ts) (.unary .not e .zero)
  | compare {links : List (Link CmpOp)} : Derives d .singleOr ts e → links ≠ [] →
      (∀ x ∈ links, Compares x.sep x.op) →
      (∀ x ∈ links, Derives d .singleOr x.tokens x.tree) →
      Derives d .comparison (ts ++ linkTokens links)
        (.compare e (links.map fun x => (x.op, x.tree)) .zero)
  | singleOr {links : List (Link BoolOp)} : Derives d .singleAnd ts e → links ≠ [] →
      (∀ x ∈ links, ConnectsSingly d .or x.sep x.op) →
      (∀ x ∈ links, Derives d .singleAnd x.tokens x.tree) →
      Derives d .singleOr (ts ++ linkTokens links)
        (.logical .or (e :: links.map (·.tree)) .zero)
  | singleAnd {links : List (Link BoolOp)} : Derives d .sum ts e → links ≠ [] →
      (∀ x ∈ links, ConnectsSingly d .and x.sep x.op) →
      (∀ x ∈ links, Derives d .sum x.tokens x.tree) →
      Derives d .singleAnd (ts ++ linkTokens links)
        (.logical .and (e :: links.map (·.tree)) .zero)
  | sum : Adds op → Derives d .sum ts l → Derives d .term us r →
      Derives d .sum (ts ++ .op op :: us) (.binary op l r .zero)
  | term : Multiplies op → Derives d .term ts l → Derives d .factor us r →
      Derives d .term (ts ++ .op op :: us) (.binary op l r .zero)
  | sign : Signs d t op → Derives d .factor ts e → Derives d .factor (t :: ts) (.unary op e .zero)
  | power : Derives d .application ts l → Derives d .factor us r →
      Derives d .power (ts ++ .op .pow :: us) (.binary .pow l r .zero)
  | call {args : List Part} : (∀ a ∈ args, Derives d .disjunction a.tokens a.tree) →
      Derives d .application
        (.ident f :: .leftParen :: argumentTokens trailing args ++ [.rightParen])
        (.call f (args.map (·.tree)) .zero)
  | number : Decimal.read? s.toList = some n →
      Derives d .atom [.number s] (.number s n.toFloat .zero)
  | var : Derives d .atom [.ident x] (.var x .zero)
  | truth : Derives d .atom [.truth b] (.bool b .zero)
  | parens : Derives d .disjunction ts e → Derives d .atom (.leftParen :: ts ++ [.rightParen]) e

/-- What derives at a level derives at every looser one. -/
theorem Derives.loosen (h : Derives d m ts e) (hl : l.depth ≤ m.depth) : Derives d l ts e := by
  obtain he | hlt := Nat.eq_or_lt_of_le hl
  · rw [Level.depth_injective he]
    exact h
  · obtain ⟨k, hk, hd⟩ := Level.operand_of_depth_lt hlt
    exact .operand hk (h.loosen (by omega))
  termination_by m.depth - l.depth

end Formulae.Grammar
