import Formulae.Analysis
import Formulae.Eval.Text
import Formulae.Proofs.Outcome
import Formulae.Proofs.Syntax.Operands

namespace Formulae
open Eval Outcome
set_option autoImplicit true

namespace Expr

/-- The expression or one of its parts has the property. -/
inductive Contains (p : Expr → Prop) : Expr → Prop
  | here : p e → Contains p e
  | operand : e' ∈ e.operands → Contains p e' → Contains p e

/-- A node whose value is not computed: a comparison, a connective, `not` or a call. -/
def Uncomputed : Expr → Prop
  | call _ _ _ | compare _ _ _ | logical _ _ _ | unary .not _ _ => True
  | _ => False

theorem contains_iff : Contains p e ↔ p e ∨ ∃ e' ∈ e.operands, Contains p e' := by
  constructor
  · rintro (h | ⟨he, h⟩)
    · exact .inl h
    · exact .inr ⟨_, he, h⟩
  · rintro (h | ⟨e', he, h⟩)
    · exact .here h
    · exact .operand he h

end Expr

/-- A constant with a single value, which is known. -/
def Environment.Fixes (env : Environment) (x : String) (value : Float) : Prop :=
  ∃ v, env.vars[x]? = some v ∧ v.constant = true ∧ v.scalar = true ∧ v.value = some value

namespace Expr

variable {env : Environment}

theorem constantValue_var : (var x sp).constantValue env = .ok value ↔ env.Fixes x value := by
  rw [constantValue, Environment.Fixes]
  cases env.vars[x]? with
  | none => simp
  | some v => cases hvalue : v.value <;> grind

theorem constantValue_neg :
    (∃ v, (unary .neg e sp).constantValue env = .ok v) ↔ ∃ v, e.constantValue env = .ok v := by
  constructor
  · rintro ⟨_, h⟩
    obtain ⟨v, hv, -⟩ := bind_eq_ok.1 h
    exact ⟨v, hv⟩
  · rintro ⟨v, hv⟩
    exact ⟨-v, by rw [constantValue, hv]; rfl⟩

theorem constantValue_binary : (∃ v, (binary op l r sp).constantValue env = .ok v) ↔
    (∃ v, l.constantValue env = .ok v) ∧ ∃ v, r.constantValue env = .ok v := by
  constructor
  · rintro ⟨_, h⟩
    obtain ⟨x, hx, h⟩ := bind_eq_ok.1 h
    obtain ⟨y, hy, -⟩ := bind_eq_ok.1 h
    exact ⟨⟨x, hx⟩, y, hy⟩
  · rintro ⟨⟨x, hx⟩, y, hy⟩
    exact ⟨op.apply x y, by rw [constantValue, hx, ok_bind, hy]; rfl⟩

/-- A node has a value if its operands have, and if it is not a variable without one. -/
theorem constantValue_node {e : Expr} : (∃ v, e.constantValue env = .ok v) ↔
    ¬e.Uncomputed ∧ (∀ x, e.ident? = some x → ∃ y, env.Fixes x y) ∧
      ∀ e' ∈ e.operands, ∃ v, e'.constantValue env = .ok v := by
  cases e with
  | number | bool => simp [constantValue, Uncomputed, ident?, operands]
  | var x sp => simp [constantValue_var, Uncomputed, ident?, operands]
  | call | compare | logical => simp [constantValue, Uncomputed]
  | unary op e sp =>
    cases op with
    | not => simp [constantValue, Uncomputed]
    | pos => simp [constantValue, Uncomputed, ident?, operands]
    | neg => simp [constantValue_neg, Uncomputed, ident?, operands]
  | binary op l r sp => simp [constantValue_binary, Uncomputed, ident?, operands]

theorem constantValue_isOk_iff {e : Expr} : (∃ v, e.constantValue env = .ok v) ↔
    ¬e.Contains Uncomputed ∧ ∀ x ∈ e.identifiers, ∃ y, env.Fixes x y := by
  induction e using inductOperands with
  | node e ih =>
    rw [constantValue_node, contains_iff]
    constructor
    · rintro ⟨hnode, hident, hoperands⟩
      constructor
      · rintro (h | ⟨e', he', h⟩)
        · exact hnode h
        · exact ((ih e' he').1 (hoperands e' he')).1 h
      · intro x hx
        rcases mem_identifiers.1 hx with hx | ⟨e', he', hx⟩
        · exact hident x hx
        · exact ((ih e' he').1 (hoperands e' he')).2 x hx
    · rintro ⟨hcontains, hfixed⟩
      refine ⟨fun h => hcontains (.inl h), fun x hx => hfixed x (mem_identifiers.2 (.inl hx)), ?_⟩
      intro e' he'
      apply (ih e' he').2
      constructor
      · exact fun h => hcontains (.inr ⟨e', he', h⟩)
      · exact fun x hx => hfixed x (mem_identifiers.2 (.inr ⟨e', he', hx⟩))

/-- Evaluation takes the same steps, and gives truth values for what counts as zero or one. -/
theorem expr_constantValue {call : Caller} {e : Expr} (hv : e.constantValue env = .ok v)
    (hσ : ∀ x ∈ e.identifiers, ∀ y, env.Fixes x y → σ[x]? = some (.number y)) :
    ∃ w, expr call σ e = .ok w ∧ w.toFloat = v := by
  induction e using Expr.induct generalizing v with
  | number s x sp =>
    cases hv
    exact ⟨.number x, rfl, rfl⟩
  | bool b sp =>
    cases hv
    exact ⟨.bool b, rfl, rfl⟩
  | var x sp =>
    have hx := hσ x (by simp [identifiers]) v (constantValue_var.1 hv)
    exact ⟨.number v, by rw [expr, hx], rfl⟩
  | call => cases hv
  | compare => cases hv
  | logical => cases hv
  | unary op e sp ih =>
    cases op with
    | not => cases hv
    | pos =>
      obtain ⟨w, hw, htoFloat⟩ := ih hv hσ
      exact ⟨.unary .pos w, by rw [expr, hw]; rfl, htoFloat⟩
    | neg =>
      obtain ⟨x, hx, hv⟩ := bind_eq_ok.1 hv
      cases hv
      obtain ⟨w, hw, rfl⟩ := ih hx hσ
      exact ⟨.unary .neg w, by rw [expr, hw]; rfl, rfl⟩
  | binary op l r sp ihl ihr =>
    obtain ⟨x, hx, hv⟩ := bind_eq_ok.1 hv
    obtain ⟨y, hy, hv⟩ := bind_eq_ok.1 hv
    cases hv
    simp only [identifiers, mem_union_iff] at hσ
    obtain ⟨w, hw, rfl⟩ := ihl hx fun z hz => hσ z (.inl hz)
    obtain ⟨w', hw', rfl⟩ := ihr hy fun z hz => hσ z (.inr hz)
    exact ⟨.binary op w w', by rw [expr, hw, ok_bind, hw']; rfl, rfl⟩

end Expr

/-- An expression has a constant value if and only if it has no comparison, connective, `not` or
call in it and all its variables are constants with a known single value. Evaluation then gives
that number in every scope in which they have these values. -/
theorem constantValue_as_evaluated (env : Environment) (e : Expr) :
    ((∃ v, e.constantValue env = .ok v) ↔
      ¬e.Contains Expr.Uncomputed ∧ ∀ x ∈ e.identifiers, ∃ y, env.Fixes x y) ∧
    ∀ v, e.constantValue env = .ok v → ∀ (fs : Interpreter) (σ : Scope),
      (∀ x ∈ e.identifiers, ∀ y, env.Fixes x y → σ[x]? = some (.number y)) →
      ∃ w, fs.eval σ e = .ok w ∧ w.toFloat = v :=
  ⟨Expr.constantValue_isOk_iff, fun _ hv _ _ hσ => Expr.expr_constantValue hv hσ⟩

/-- The value of `-(k + True)` where `k` is 2, without any function. -/
theorem constantValue_as_evaluated_negated :
    let env : Environment := { vars := .ofList [("k", .ofValue .dimensionless 2)] }
    let σ : Scope := .ofList [("k", .number 2)]
    let e : Expr := .unary .neg (.binary .add (.var "k" .zero) (.bool true .zero) .zero) .zero
    e.constantValue env = .ok (-(2 + 1)) ∧
    (∀ x ∈ e.identifiers, ∀ y, env.Fixes x y → σ[x]? = some (.number y)) ∧
    ∃ w, Interpreter.eval ∅ σ e = .ok w ∧ w.toFloat = -(2 + 1) := by
  intro env σ e
  have hk : env.vars["k"]? = some (.ofValue .dimensionless 2) := Table.getElem?_insert
  have hv : e.constantValue env = .ok (-(2 + 1)) := by
    simp only [e, Expr.constantValue, hk]
    rfl
  have hσ : ∀ x ∈ e.identifiers, ∀ y, env.Fixes x y → σ[x]? = some (.number y) := by
    intro x hx y hy
    obtain rfl : "k" = x := by simpa [e, Expr.identifiers] using hx
    obtain ⟨v, hvar, -, -, hvalue⟩ := hy
    cases hk.symm.trans hvar
    cases hvalue
    exact Table.getElem?_insert
  exact ⟨hv, hσ, (constantValue_as_evaluated env e).2 _ hv ∅ σ hσ⟩

end Formulae
