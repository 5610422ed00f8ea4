import Formulae.Eval.Interpreter
import Formulae.Proofs.Outcome
import Formulae.Proofs.Syntax.Names

namespace Formulae.Eval
open Outcome
set_option autoImplicit true

/-- A value, or else what is told of a fault but for its place. -/
def reported (x : Except Fault α) : Except (FaultCode × Option String) α :=
  x.mapError fun f => (f.code, f.details)

theorem reported_eq_ok {x : Except Fault α} : reported x = .ok a ↔ x = .ok a := by
  constructor
  · intro h
    cases x with
    | ok b =>
      cases h
      rfl
    | error e => cases h
  · intro h
    subst h
    rfl

theorem reported_bind {x y : Except Fault α} {f g : α → Except Fault β}
    (hx : reported x = reported y) (hf : ∀ a, y = .ok a → reported (f a) = reported (g a)) :
    reported (x >>= f) = reported (y >>= g) := by
  cases y with
  | ok a =>
    rw [reported_eq_ok.1 hx]
    exact hf a rfl
  | error e' =>
    cases x with
    | ok a => cases hx
    | error e => exact congrArg Except.error (Except.error.inj hx)

/-- The outcomes of calls do not depend on where the calls were written. -/
def Unplaced (call : Caller) : Prop :=
  ∀ sp sp' f args scope, reported (call sp f args scope) = reported (call sp' f args scope)

theorem reported_checkCount (sp sp' : Span) :
    reported (checkCount sp f n k) = reported (checkCount sp' f n k) := by
  unfold checkCount
  split <;> rfl

theorem unplaced_callWith (fs : Interpreter) (inner : Option Caller) :
    Unplaced (callWith fs inner) := by
  intro sp sp' f args scope
  unfold callWith
  split
  · rfl
  · exact reported_bind (reported_checkCount sp sp') fun _ _ => rfl
  · exact reported_bind (reported_checkCount sp sp') fun _ _ => rfl
  · apply reported_bind (reported_checkCount sp sp')
    intro _ _
    split <;> rfl

theorem unplaced_callWithin (fs : Interpreter) (depth : Nat) : Unplaced (callWithin fs depth) := by
  cases depth <;> exact unplaced_callWith _ _

theorem reported_exprList {es : List Expr} {f : Expr → Expr}
    (h : ∀ e ∈ es, reported (expr call scope (f e)) = reported (expr call scope e)) :
    reported (exprList call scope (es.map f)) = reported (exprList call scope es) := by
  induction es with
  | nil => rfl
  | cons e es ih =>
    rw [List.forall_mem_cons] at h
    apply reported_bind h.1
    intro v _
    exact reported_bind (ih h.2) fun _ _ => rfl

theorem reported_connective {es : List Expr} {f : Expr → Expr}
    (h : ∀ e ∈ es, reported (expr call scope (f e)) = reported (expr call scope e)) :
    reported (connective call scope op (es.map f)) = reported (connective call scope op es) := by
  induction es with
  | nil => rfl
  | cons e es ih =>
    rw [List.forall_mem_cons] at h
    cases es with
    | nil => exact h.1
    | cons e' es =>
      apply reported_bind h.1
      intro v _
      split
      · rfl
      · exact ih h.2

theorem reported_comparisons {rest : List (CmpOp × Expr)} {f : Expr → Expr}
    (h : ∀ x ∈ rest, reported (expr call scope (f x.2)) = reported (expr call scope x.2))
    (left : Float) :
    reported (comparisons call scope left (rest.map fun x => (x.1, f x.2))) =
      reported (comparisons call scope left rest) := by
  induction rest generalizing left with
  | nil => rfl
  | cons x rest ih =>
    rw [List.forall_mem_cons] at h
    apply reported_bind h.1
    intro v _
    split
    · exact ih h.2 _
    · rfl

/-- An expression has the same outcome wherever it was written. -/
theorem reported_eraseSpans (hcall : Unplaced call) (scope : Scope) (e : Expr) :
    reported (expr call scope e.eraseSpans) = reported (expr call scope e) := by
  induction e using Expr.induct with
  | number => rfl
  | bool => rfl
  | var x sp =>
    simp only [Expr.eraseSpans, expr]
    split <;> rfl
  | call f args sp ih =>
    rw [Expr.eraseSpans, Expr.eraseSpansOfList_eq, expr, expr]
    apply reported_bind (reported_exprList ih)
    intro vs _
    exact hcall _ _ f vs scope
  | unary op e sp ih => exact reported_bind ih fun _ _ => rfl
  | binary op l r sp ihl ihr =>
    apply reported_bind ihl
    intro v _
    exact reported_bind ihr fun _ _ => rfl
  | compare e rest sp ihe ihr =>
    rw [Expr.eraseSpans, Expr.eraseSpansOfRest_eq, expr, expr]
    apply reported_bind ihe
    intro v _
    exact reported_comparisons ihr _
  | logical op es sp ih =>
    rw [Expr.eraseSpans, Expr.eraseSpansOfList_eq, expr, expr]
    exact reported_connective ih

end Formulae.Eval
