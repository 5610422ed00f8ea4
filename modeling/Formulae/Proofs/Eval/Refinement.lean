import Formulae.Eval.Interpreter
import Formulae.Proofs.Outcome
import Formulae.Proofs.Syntax.Operands
import Mathlib.Data.List.Forall2

namespace Formulae.Eval
open Outcome
set_option autoImplicit true

variable {call call' : Caller} {σ τ : Scope} {P : Fault → Prop}

theorem follows_exprList {es : List Expr}
    (h : List.Forall₂ (fun e' e => Follows P (expr call' τ e') (expr call σ e)) es' es) :
    Follows P (exprList call' τ es') (exprList call σ es) := by
  induction h with
  | nil => exact .refl _
  | cons he _ ih => exact he.bind fun v => ih.bind fun vs => .refl _

theorem follows_connective {es : List Expr}
    (h : List.Forall₂ (fun e' e => Follows P (expr call' τ e') (expr call σ e)) es' es) :
    Follows P (connective call' τ op es') (connective call σ op es) := by
  induction h with
  | nil => exact .refl _
  | cons he hes ih =>
    cases hes with
    | nil => exact he
    | cons he' hes =>
      apply he.bind
      intro v
      split
      · exact .refl _
      · exact ih

theorem follows_comparisons {rest : List (CmpOp × Expr)}
    (h : List.Forall₂ (fun e' e => Follows P (expr call' τ e') (expr call σ e)) es'
      (rest.map Prod.snd)) (left : Float) :
    Follows P (comparisons call' τ left ((rest.map Prod.fst).zip es'))
      (comparisons call σ left rest) := by
  induction rest generalizing es' left with
  | nil => exact .refl _
  | cons x rest ih =>
    cases h with
    | cons he hes =>
      apply he.bind
      intro v
      split
      · exact ih hes _
      · exact .refl _

theorem follows_withOperands {e : Expr}
    (h : List.Forall₂ (fun e' e => Follows P (expr call' τ e') (expr call σ e)) es' e.operands)
    (hvar : ∀ x, e.ident? = some x → τ[x]? = σ[x]?)
    (hcall : ∀ f, e.callee? = some f → ∀ sp vs, Follows P (call' sp f vs τ) (call sp f vs σ)) :
    Follows P (expr call' τ (e.withOperands es')) (expr call σ e) := by
  cases e with
  | number => exact .refl _
  | bool => exact .refl _
  | var x sp =>
    simp only [Expr.withOperands, expr, hvar x rfl]
    exact .refl _
  | call f args sp => exact (follows_exprList h).bind fun vs => hcall f rfl sp vs
  | unary op e sp =>
    cases h with
    | cons he hes =>
      cases hes
      exact he.bind fun v => .refl _
  | binary op l r sp =>
    cases h with
    | cons hl hes =>
      cases hes with
      | cons hr hes =>
        cases hes
        exact hl.bind fun v => hr.bind fun w => .refl _
  | compare e rest sp =>
    cases h with
    | cons he hes => exact he.bind fun v => follows_comparisons hes _
  | logical op es sp => exact follows_connective h

/-- Only the variables of an expression and the calls in it matter for its outcome. -/
theorem follows_expr {e : Expr} (hvars : ∀ x ∈ e.identifiers, τ[x]? = σ[x]?)
    (hcalls : ∀ f ∈ e.functions, ∀ sp vs, Follows P (call' sp f vs τ) (call sp f vs σ)) :
    Follows P (expr call' τ e) (expr call σ e) := by
  induction e using Expr.inductOperands with
  | node e ih =>
    have hoperands : ∀ e' ∈ e.operands, Follows P (expr call' τ e') (expr call σ e') := by
      intro e' he'
      apply ih e' he'
      · exact fun x hx => hvars x (Expr.mem_identifiers.2 (.inr ⟨e', he', hx⟩))
      · exact fun f hf => hcalls f (Expr.mem_functions.2 (.inr ⟨e', he', hf⟩))
    have hnode := follows_withOperands (List.forall₂_same.2 hoperands)
      (fun x hx => hvars x (Expr.mem_identifiers.2 (.inl hx)))
      (fun f hf => hcalls f (Expr.mem_functions.2 (.inl hf)))
    rwa [Expr.withOperands_operands] at hnode

theorem follows_assigned {s : Statement} (hvars : ∀ x ∈ s.reads, τ[x]? = σ[x]?)
    (hcalls : ∀ f ∈ s.value.functions, ∀ sp vs, Follows P (call' sp f vs τ) (call sp f vs σ)) :
    Follows P (assigned call' τ s) (assigned call σ s) := by
  obtain ⟨target, op, value⟩ := s
  cases op with
  | set => exact (follows_expr hvars hcalls).bind fun v => .refl _
  | update op =>
    have hvalue := follows_expr (fun x hx => hvars x (mem_insert_iff.2 (.inr hx))) hcalls
    apply hvalue.bind
    intro v
    rw [hvars target (mem_insert_iff.2 (.inl rfl))]
    exact .refl _

theorem refines_withOperands {e : Expr}
    (h : List.Forall₂ (fun e' e => Refines (expr call' τ e') (expr call σ e)) es' e.operands)
    (hvar : ∀ x, e.ident? = some x → τ[x]? = σ[x]?)
    (hcall : ∀ f, e.callee? = some f → ∀ sp vs, Refines (call' sp f vs τ) (call sp f vs σ)) :
    Refines (expr call' τ (e.withOperands es')) (expr call σ e) := by
  simp only [← follows_any] at h hcall ⊢
  exact follows_withOperands h hvar hcall

theorem refines_var (h : τ[y]? = σ[x]?) :
    Refines (expr call' τ (.var y sp)) (expr call σ (.var x sp)) := by
  simp only [expr, h]
  cases σ[x]? with
  | some v => exact .refl _
  | none => exact refines_error _ _

/-- An expression with its variables renamed, if the new names have the values of the old ones. -/
theorem refines_rename {e : Expr} {names : Table String}
    (hvars : ∀ x ∈ e.identifiers, τ[names.getD x x]? = σ[x]?)
    (hcalls : ∀ f ∈ e.functions, ∀ sp vs, Refines (call' sp f vs τ) (call sp f vs σ)) :
    Refines (expr call' τ (e.rename names)) (expr call σ e) := by
  induction e using Expr.inductOperands with
  | node e ih =>
    cases hvar : e.ident? with
    | some x =>
      cases e <;> cases hvar
      exact refines_var (hvars x (Expr.mem_identifiers.2 (.inl rfl)))
    | none =>
      rw [Expr.rename_eq_withOperands hvar]
      apply refines_withOperands
      · rw [List.forall₂_map_left_iff, List.forall₂_same]
        intro e' he'
        apply ih e' he'
        · intro x hx
          exact hvars x (Expr.mem_identifiers.2 (.inr ⟨e', he', hx⟩))
        · intro f hf
          exact hcalls f (Expr.mem_functions.2 (.inr ⟨e', he', hf⟩))
      · intro x hx
        rw [hvar] at hx
        cases hx
      · intro f hf
        exact hcalls f (Expr.mem_functions.2 (.inl hf))

end Formulae.Eval
