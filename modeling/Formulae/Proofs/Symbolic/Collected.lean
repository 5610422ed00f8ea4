import Formulae.Proofs.Symbolic.Bases
import Formulae.Proofs.Syntax.Operands

namespace Formulae
open Outcome
set_option autoImplicit true

namespace Symbolic

/-- No two terms are the same but for their coefficients, no two factors have the same base, there is
one number at most, and no sum in a sum. -/
def Collected : Symbolic → Prop
  | sum xs => xs.Pairwise (fun x y => (x.term == y.term) = false) ∧
      (xs.filter isNumber).length ≤ 1 ∧ ∀ x ∈ xs, x.isSum = false
  | product xs => xs.Pairwise (fun x y => (x.base == y.base) = false) ∧
      (xs.filter isNumber).length ≤ 1
  | _ => True

instance : DecidablePred Collected
  | sum _ => inferInstanceAs (Decidable (_ ∧ _ ∧ _))
  | product _ => inferInstanceAs (Decidable (_ ∧ _))
  | number _ | truth _ | symbol _ | power _ _ | remainder _ _ | call _ _ | relation _ _ _
  | negation _ | logical _ _ => isTrue trivial

theorem Neat.collected_sum {xs : List Symbolic} (h : (sum xs).Neat) : Collected (sum xs) := by
  obtain ⟨-, hterms, hnumbers, hoperands⟩ := h.gathered
  refine ⟨pairwise_of_others beq_eq_false_symm hterms hnumbers fun x hx y hy hnumber => ?_,
    hnumbers, fun x hx => (hoperands x hx).1⟩
  have hmem := mem_of_mem_others hx
  have hterm := isTerm_splitCoefficient (h.operand x hmem).everywhere.node
    (isNumber_of_mem_others hx) (hoperands x hmem).1
  cases y with
  | number c => exact beq_number_eq_false hterm.number hnumber
  | _ => cases hnumber

theorem isNumber_base {x : Symbolic} (hx : HasBase x) (h : x.isNumber = false) :
    x.base.isNumber = false := by
  cases x with
  | power b e =>
    rcases isBase_cases hx with hb | ⟨xs, rfl⟩
    · exact (isBare_eq_true.1 hb).1
    · rfl
  | _ => exact h

/-- The coefficient is no base, as no number is raised. -/
theorem Plain.collected_product {xs : List Symbolic} (h : (product xs).Plain) :
    Collected (product xs) := by
  obtain ⟨-, hbases, -⟩ := h.neat.gathered
  obtain ⟨-, -, hnumbers, -⟩ := h.neat.shape
  have hone : (xs.filter isNumber).length ≤ 1 := by
    cases xs with
    | nil => exact Nat.zero_le 1
    | cons x xs =>
      have hnone : xs.filter isNumber = [] := by simpa using hnumbers
      rw [List.filter_cons, hnone]
      split <;> simp
  refine ⟨pairwise_of_others beq_eq_false_symm hbases hone fun x hx y hy hnumber => ?_, hone⟩
  have hbase : HasBase x := (h.operand x (mem_of_mem_others hx)).everywhere.node.base
  cases y with
  | number c => exact beq_number_eq_false (isNumber_base hbase (isNumber_of_mem_others hx)) hnumber
  | _ => cases hnumber

theorem Plain.everywhere_collected {s : Symbolic} (h : s.Plain) : Everywhere Collected s := by
  obtain ⟨heverywhere, hformed⟩ := h
  induction heverywhere with
  | @intro s hs hxs ih =>
    have hplain : s.Plain := ⟨.intro hs hxs, hformed⟩
    refine .intro ?_ fun x hx => ih x hx (hformed.operand x hx)
    cases s with
    | sum => exact hplain.neat.collected_sum
    | product => exact hplain.collected_product
    | _ => trivial

theorem refines_based : Refines Based where
  shape h := h.tidy.1
  other {s} harithmetic hs _ := by
    cases s with
    | sum | product | power => cases harithmetic
    | _ => exact ⟨⟨hs, trivial⟩, trivial⟩

end Symbolic

namespace Expr

/-- The powers that a node is turned into: what is raised, and the exponent. -/
def powers : Expr → List (Symbolic × Symbolic)
  | call "sqrt" [x] _ => [(x.symbolic, .number 0.5)]
  | binary .div _ y _ => [(y.symbolic, .number (-1))]
  | binary .pow x y _ => [(x.symbolic, y.symbolic)]
  | _ => []

/-- Whatever is raised in an expression, divides or stands under a root is raisable. -/
inductive Raisable : Expr → Prop
  | intro : (∀ p ∈ e.powers, Symbolic.isRaisable p.1 p.2 = true) →
      (∀ x ∈ e.operands, Raisable x) → Raisable e

theorem Raisable.power (h : Raisable e) :
    ∀ p ∈ e.powers, Symbolic.isRaisable p.1 p.2 = true := by
  cases h with
  | intro hpowers => exact hpowers

theorem Raisable.operand (h : Raisable e) : ∀ x ∈ e.operands, Raisable x := by
  cases h with
  | intro _ hoperands => exact hoperands

/-- Is an expression raisable, as far as it goes no deeper than the depth? -/
def raisableWithin : Nat → Expr → Bool
  | 0, _ => false
  | depth + 1, e =>
    e.powers.all (fun p => Symbolic.isRaisable p.1 p.2) && e.operands.all (raisableWithin depth)

theorem raisable_of_within {e : Expr} (h : e.raisableWithin depth = true) : e.Raisable := by
  induction depth generalizing e with
  | zero => cases h
  | succ depth ih =>
    rw [raisableWithin, Bool.and_eq_true, List.all_eq_true, List.all_eq_true] at h
    exact .intro h.1 fun x hx => ih (h.2 x hx)

end Expr

namespace Symbolic

theorem plain_add {xs : List Symbolic} (hxs : ∀ x ∈ xs, Plain x) : Plain (add xs) :=
  Call.plain_result (c := .add xs) trivial hxs

theorem plain_mul {xs : List Symbolic} (hxs : ∀ x ∈ xs, Plain x) : Plain (mul xs) :=
  Call.plain_result (c := .mul xs) trivial hxs

theorem plain_pow {b e : Symbolic} (h : isRaisable b e = true) (hb : b.Plain) (he : e.Plain) :
    Plain (pow b e) :=
  Call.plain_result (c := .pow b e) h (by simpa [Call.operands] using ⟨hb, he⟩)

theorem plain_neg {x : Symbolic} (hx : x.Plain) : Plain (neg x) :=
  plain_mul (by simpa using ⟨passed_plain.number, hx⟩)

theorem based_ofUnary {x : Symbolic} (hx : x.Plain) (op : UnaryOp) :
    Everywhere Based (ofUnary op x) := by
  cases op with
  | pos => exact hx.everywhere
  | neg => exact (plain_neg hx).everywhere
  | not => exact refines_based.not hx.everywhere

theorem based_ofBinary {x y : Expr} (h : (Expr.binary op x y sp).Raisable) (hx : x.symbolic.Plain)
    (hy : y.symbolic.Plain) : Everywhere Based (ofBinary op x.symbolic y.symbolic) := by
  have hpower := h.power
  cases op with
  | add => exact (plain_add (by simpa using ⟨hx, hy⟩)).everywhere
  | sub => exact (plain_add (by simpa using ⟨hx, plain_neg hy⟩)).everywhere
  | mul => exact (plain_mul (by simpa using ⟨hx, hy⟩)).everywhere
  | div =>
    have hinverse := plain_pow (hpower _ List.mem_cons_self) hy passed_plain.number
    exact (plain_mul (by simpa using ⟨hx, hinverse⟩)).everywhere
  | mod => exact refines_based.mod hx.everywhere hy.everywhere
  | pow => exact (plain_pow (hpower _ List.mem_cons_self) hx hy).everywhere

end Symbolic

open Symbolic (Everywhere Based Unquoted refines_based)

/-- By induction on the expression. -/
theorem Legible.based (h : Legible Unquoted e) (hraisable : e.Raisable) :
    Everywhere Based e.symbolic := by
  induction h with
  | number => exact refines_based.number
  | bool => exact refines_based.truth
  | var => exact refines_based.symbol
  | @call f args sp _ hargs ih =>
    have hxs : ∀ x ∈ args.map Expr.symbolic, x.Everywhere Based :=
      List.forall_mem_map.2 fun e he => ih e he (hraisable.operand e he)
    rw [Expr.symbolic, Expr.symbolicList_eq]
    rcases Symbolic.apply_cases f (args.map Expr.symbolic) with ⟨x, rfl, hx, hroot⟩ | ⟨hf, hcall⟩
    · obtain ⟨e, rfl, rfl⟩ := List.map_eq_singleton_iff.1 hx
      have he : e.symbolic.Plain := ⟨hxs _ List.mem_cons_self, (hargs e List.mem_cons_self).formed⟩
      rw [hroot]
      exact (Symbolic.plain_pow (hraisable.power _ List.mem_cons_self) he
        Symbolic.passed_plain.number).everywhere
    · rw [hcall]
      exact refines_based.call hf hxs
  | @unary e op sp he ih =>
    exact Symbolic.based_ofUnary ⟨ih (hraisable.operand e List.mem_cons_self), he.formed⟩ op
  | @binary l r op sp hl hr ihl ihr =>
    exact Symbolic.based_ofBinary hraisable
      ⟨ihl (hraisable.operand l List.mem_cons_self), hl.formed⟩
      ⟨ihr (hraisable.operand r (List.mem_cons_of_mem _ List.mem_cons_self)), hr.formed⟩
  | @compare e rest sp _ _ _ ihe ihr =>
    have hoperands := hraisable.operand
    rw [Expr.operands, List.forall_mem_cons, List.forall_mem_map] at hoperands
    have hrest r (hr : r ∈ rest) : r.2.symbolic.Everywhere Based := ihr r hr (hoperands.2 r hr)
    rw [Expr.symbolic]
    exact refines_based.logic (Expr.forall_mem_relations
      (fun _ _ _ hx hy => refines_based.relate hx hy) (ihe hoperands.1) hrest)
  | logical _ _ ih =>
    rw [Expr.symbolic, Expr.symbolicList_eq]
    exact refines_based.logic (List.forall_mem_map.2 fun e he => ih e he (hraisable.operand e he))

theorem Token.IsName.unquoted (h : Token.IsName d x) : Unquoted x := by
  obtain ⟨-, c, cs, hx, hstart, hcontinue⟩ := h
  have hquote : Text.isIdentStart '\'' = false ∧ Text.isIdentContinue '\'' = false := by
    decide +kernel
  rw [Unquoted, hx, List.mem_cons, not_or]
  refine ⟨?_, fun hmem => ?_⟩
  · rintro rfl
    rw [hquote.1] at hstart
    cases hstart
  · rw [hcontinue _ hmem] at hquote
    cases hquote.2

/-- If only what is raisable is raised in an expression, what it is turned into is plain. -/
theorem Expr.plain_of_parse (h : Expr.parse d code = .ok e) (hraisable : e.Raisable) :
    e.symbolic.Plain := by
  have hlegible : Legible Unquoted e := (Expr.legible_of_parse h).imp fun _ _ hx => hx.unquoted
  exact ⟨hlegible.based hraisable, hlegible.formed⟩

/-- What an expression is turned into is collected at every node, if neither a power nor a product
with a power in it is raised to what is no whole number, and no number stays a base. -/
theorem like_operands_collected (h : Expr.parse d code = .ok e) (hraisable : e.Raisable) :
    e.symbolic.Everywhere Symbolic.Collected :=
  (Expr.plain_of_parse h hraisable).everywhere_collected

/-- The powers of a product collapse to a product, which is taken apart and collected again. -/
theorem like_operands_collected_regrouped :
    ∃ e, Expr.parse .equation "(x/y)**k*(x/y)**(2 - k)/x**2 + sqrt(y)**-4*3" = .ok e ∧
      e.Raisable ∧
      e.symbolic.constructorText = "Mul(Integer(4), Pow(Symbol('y'), Integer(-2)))" ∧
      e.symbolic.Everywhere Symbolic.Collected := by
  have hall : (Expr.parse .equation "(x/y)**k*(x/y)**(2 - k)/x**2 + sqrt(y)**-4*3").map (fun e =>
      decide (e.raisableWithin 8 = true ∧ e.symbolic.constructorText =
        "Mul(Integer(4), Pow(Symbol('y'), Integer(-2)))")) = .ok true := by
    decide +kernel
  obtain ⟨e, he, hraisable⟩ := map_eq_ok.1 hall
  obtain ⟨hraisable, htext⟩ := of_decide_eq_true hraisable
  have hraisable := Expr.raisable_of_within hraisable
  exact ⟨e, he, hraisable, htext, like_operands_collected he hraisable⟩

/-- A power that is raised collapses to a power with the base of another factor, and the two are
left side by side. -/
theorem nested_powers_not_collected :
    ∃ e, Expr.parse .equation "a**(-b) * (a**b)**c * (a**b)**(1-c)" = .ok e ∧
      e.symbolic.constructorText =
        "Mul(Pow(Symbol('a'), Mul(Integer(-1), Symbol('b'))), Pow(Symbol('a'), Symbol('b')))" ∧
      ¬e.symbolic.Everywhere Symbolic.Collected := by
  have hall : (Expr.parse .equation "a**(-b) * (a**b)**c * (a**b)**(1-c)").map (fun e =>
      decide (e.symbolic.constructorText =
        "Mul(Pow(Symbol('a'), Mul(Integer(-1), Symbol('b'))), Pow(Symbol('a'), Symbol('b')))" ∧
          ¬e.symbolic.Collected)) = .ok true := by
    decide +kernel
  obtain ⟨e, he, hnot⟩ := map_eq_ok.1 hall
  obtain ⟨htext, hnot⟩ := of_decide_eq_true hnot
  exact ⟨e, he, htext, fun h => hnot h.node⟩

/-- A number that stays a base may be the coefficient, or become zero behind it. -/
example : (Symbolic.ofText "2*2**x").map Symbolic.constructorText =
      .ok "Mul(Integer(2), Pow(Integer(2), Symbol('x')))" ∧
    (Symbolic.ofText "z + 5 + x**(0**p*y*0**(1-p)) + x**(0**p*y*0**(1-p))").map
      Symbolic.constructorText = .ok "Add(Integer(2), Integer(5), Symbol('z'))" := by
  decide +kernel

end Formulae
