import Formulae.Proofs.Grammar.Rules
import Formulae.Proofs.Syntax.Operands

namespace Formulae.Grammar
set_option autoImplicit true

/-- The names before parentheses have the property `F`, all others have the property `V`. -/
def Roles (V F : String → Prop) : List Token → Prop
  | [] => True
  | t :: ts =>
    (∀ x, t = .ident x → if ts.head? = some .leftParen then F x else V x) ∧ Roles V F ts

/-- A token that is no name and after which a name stands in the role that it had. -/
structure Parts (t : Token) : Prop where
  ne_ident : ∀ x, t ≠ .ident x
  ne_leftParen : t ≠ .leftParen

variable {V F : String → Prop}

theorem roles_cons_of_ne (h : ∀ x, t ≠ .ident x) : Roles V F (t :: ts) ↔ Roles V F ts :=
  and_iff_right fun x hx => absurd hx (h x)

theorem roles_append (h : us.head? ≠ some .leftParen) :
    Roles V F (ts ++ us) ↔ Roles V F ts ∧ Roles V F us := by
  induction ts with
  | nil => simp [Roles]
  | cons t ts ih =>
    rw [List.cons_append, Roles, Roles, ih, and_assoc]
    cases ts with
    | nil => simp [h]
    | cons u ts => rfl

theorem roles_between (h : Parts t) :
    Roles V F (ts ++ t :: us) ↔ Roles V F ts ∧ Roles V F us := by
  rw [roles_append (by simpa using h.ne_leftParen), roles_cons_of_ne h.ne_ident]

theorem parts_op (op : BinaryOp) : Parts (.op op) := ⟨nofun, nofun⟩

theorem parts_comma : Parts .comma := ⟨nofun, nofun⟩

theorem parts_rightParen : Parts .rightParen := ⟨nofun, nofun⟩

theorem Connects.parts (h : Connects d op t o) : Parts t := by
  cases h <;> exact ⟨nofun, nofun⟩

theorem ConnectsSingly.parts (h : ConnectsSingly d op t o) : Parts t := by
  cases h
  exact ⟨nofun, nofun⟩

theorem Compares.parts (h : Compares t o) : Parts t := by
  cases h
  exact ⟨nofun, nofun⟩

theorem roles_linkTokens {links : List (Link ω)} (h : ∀ x ∈ links, Parts x.sep) :
    Roles V F (ts ++ linkTokens links) ↔ Roles V F ts ∧ ∀ x ∈ links, Roles V F x.tokens := by
  induction links generalizing ts with
  | nil => simp [linkTokens]
  | cons x links ih =>
    rw [List.forall_mem_cons] at h ⊢
    have htokens : ts ++ linkTokens (x :: links) =
        ts ++ x.sep :: (x.tokens ++ linkTokens links) := by
      rw [linkTokens, List.flatMap_cons, List.cons_append, linkTokens]
    rw [htokens, roles_between h.1, ih h.2]

theorem roles_argumentTokens {args : List Part} :
    Roles V F (argumentTokens trailing args) ↔ ∀ a ∈ args, Roles V F a.tokens := by
  fun_induction argumentTokens trailing args with
  | case1 => simp [Roles]
  | case2 a _ => simp [roles_between parts_comma, Roles]
  | case3 a _ => simp
  | case4 a b as ih =>
    rw [roles_between parts_comma, ih, List.forall_mem_cons (a := a)]

theorem roles_parens : Roles V F (.leftParen :: ts ++ [.rightParen]) ↔ Roles V F ts := by
  rw [List.cons_append, roles_cons_of_ne (by nofun), roles_between parts_rightParen]
  exact and_iff_left trivial

theorem roles_call :
    Roles V F (.ident f :: .leftParen :: ts ++ [.rightParen]) ↔ F f ∧ Roles V F ts := by
  have hname : Roles V F (.ident f :: (.leftParen :: ts ++ [.rightParen])) ↔
      F f ∧ Roles V F (.leftParen :: ts ++ [.rightParen]) := by
    simp [Roles]
  exact hname.trans (and_congr_right fun _ => roles_parens)

theorem roles_chain {links : List (Link ω)} (hsep : ∀ x ∈ links, Parts x.sep)
    (h : Roles V F ts ↔ Expr.Named V F e)
    (hl : ∀ x ∈ links, (Roles V F x.tokens ↔ x.tree.Named V F)) :
    Roles V F (ts ++ linkTokens links) ↔ Expr.Named V F e ∧ ∀ x ∈ links, x.tree.Named V F := by
  rw [roles_linkTokens hsep, h]
  exact and_congr_right fun _ => forall₂_congr hl

theorem roles_logical {links : List (Link BoolOp)} (hsep : ∀ x ∈ links, Parts x.sep)
    (h : Roles V F ts ↔ Expr.Named V F e)
    (hl : ∀ x ∈ links, (Roles V F x.tokens ↔ x.tree.Named V F)) :
    Roles V F (ts ++ linkTokens links) ↔
      (Expr.logical op (e :: links.map (·.tree)) sp).Named V F := by
  rw [roles_chain hsep h hl, Expr.named_logical_iff, List.forall_mem_cons, List.forall_mem_map]

/-- The names of a tree are those of its tokens, the variables and the functions apart. -/
theorem Derives.roles_iff (h : Derives d l ts e) : Roles V F ts ↔ e.Named V F := by
  induction h with
  | operand _ _ ih => exact ih
  | or _ _ hsep _ ih ihl => exact roles_logical (fun x hx => (hsep x hx).parts) ih ihl
  | and _ _ hsep _ ih ihl => exact roles_logical (fun x hx => (hsep x hx).parts) ih ihl
  | not _ ih => rw [roles_cons_of_ne (by nofun), ih, Expr.named_unary_iff]
  | compare _ _ hsep _ ih ihl =>
    rw [roles_chain (fun x hx => (hsep x hx).parts) ih ihl, Expr.named_compare_iff,
      List.forall_mem_map]
  | singleOr _ _ hsep _ ih ihl => exact roles_logical (fun x hx => (hsep x hx).parts) ih ihl
  | singleAnd _ _ hsep _ ih ihl => exact roles_logical (fun x hx => (hsep x hx).parts) ih ihl
  | sum _ _ _ ihl ihr => rw [roles_between (parts_op _), ihl, ihr, Expr.named_binary_iff]
  | term _ _ _ ihl ihr => rw [roles_between (parts_op _), ihl, ihr, Expr.named_binary_iff]
  | sign hsign _ ih => rw [roles_cons_of_ne hsign.isFixed.ne_ident, ih, Expr.named_unary_iff]
  | power _ _ ihl ihr => rw [roles_between (parts_op _), ihl, ihr, Expr.named_binary_iff]
  | @call args f trailing _ ih =>
    rw [roles_call, roles_argumentTokens, Expr.named_call_iff, List.forall_mem_map]
    exact and_congr_right fun _ => forall₂_congr ih
  | number => simp [Roles, Expr.named_number]
  | var => simp [Roles, Expr.named_var_iff]
  | truth => simp [Roles, Expr.named_bool]
  | parens _ ih => rw [roles_parens, ih]

theorem roles_iff_forall {P : String → Prop} : Roles P P ts ↔ ∀ x, .ident x ∈ ts → P x := by
  induction ts with
  | nil => simp [Roles]
  | cons t ts ih => simp only [Roles, ite_self, ih, List.mem_cons]; grind

end Formulae.Grammar
