import Formulae.Proofs.Eval.Connective
import Formulae.Proofs.Eval.Places
import Formulae.Proofs.Eval.Registered
import Formulae.Proofs.Render.Backend

namespace Formulae
open Eval Outcome
open Token (IsName)
set_option autoImplicit true

/-- The functions that the backends call compute what the operators do. -/
structure Helped (call : Caller) : Prop where
  binary : Backend.isBetween b op = false →
    call sp (Backend.functionName op) [v, w] scope = .ok (.binary op v w)
  not : call sp "logical_not" [v] scope = .ok (.unary .not v)

theorem toFloat_eq_zero (v : Value) : (v.toFloat == 0) = !v.isTrue := by
  have hzero : ((0 : Float) == 0) = true := by decide
  have hone : ((1 : Float) == 0) = false := by decide
  cases v with
  | bool b =>
    cases b
    · exact hzero
    · exact hone
  | number x => exact (Bool.not_not _).symm

/-- As long as no definition has the name of a helper, the backends may call it. -/
theorem helped_withDefinitions [Draws] (h : ∀ d ∈ ds, ∀ x ∈ Interpreter.helpers, d.name ≠ x.1)
    (depth : Nat) : Helped (callWithin (Interpreter.builtin.withDefinitions ds) depth) := by
  have hget : ∀ x ∈ Interpreter.helpers,
      (Interpreter.builtin.withDefinitions ds)[x.1]? = some x.2 := by
    intro x hx
    rw [Interpreter.getElem?_withDefinitions_of_ne fun d hd => h d hd x hx]
    exact Interpreter.getElem?_builtin_of_mem hx
  simp only [Interpreter.helpers, List.forall_mem_cons] at hget
  obtain ⟨hpow, hfmod, hnot, -⟩ := hget
  obtain ⟨inner, hinner⟩ : ∃ inner, callWithin (Interpreter.builtin.withDefinitions ds) depth =
      callWith (Interpreter.builtin.withDefinitions ds) inner := by
    cases depth <;> exact ⟨_, rfl⟩
  rw [hinner]
  constructor
  · intro b op sp v w scope hop
    cases op with
    | mod => simp only [callWith, Backend.functionName, hfmod]; rfl
    | pow => simp only [callWith, Backend.functionName, hpow]; rfl
    | _ => cases b <;> cases hop
  · intro sp v scope
    simp only [callWith, hnot]
    exact congrArg (fun b => Except.ok (Value.bool b)) (toFloat_eq_zero v)

theorem expr_conjunctionTree (h : ts ≠ []) :
    expr call scope (Expr.conjunctionTree ts) = connective call scope .and ts := by
  obtain ⟨t, ts, rfl⟩ := List.exists_cons_of_ne_nil h
  cases ts <;> rfl

theorem connective_error (h : expr call scope e = .error f) :
    connective call scope op (e :: es) = .error f := by
  cases es <;> simp only [connective, h, error_bind]

/-- A chain of comparisons stops where the conjunction of single ones is decided. The left operand
of each has been computed before, and computing it again gives the same value. -/
theorem reported_pairTrees {rest : List (CmpOp × Expr)} (hne : rest ≠ [])
    (hleft : expr call scope left = .ok v)
    (h : ∀ x ∈ rest, reported (expr call scope (x.2.backendTree b)) =
      reported (expr call scope x.2)) :
    reported (connective call scope .and (Expr.pairTrees b left rest)) =
      reported (comparisons call scope v.toFloat rest) := by
  induction rest generalizing left v with
  | nil => exact absurd rfl hne
  | cons x rest ih =>
    rw [List.forall_mem_cons] at h
    have hpair : expr call scope (.compare left [(x.1, x.2.backendTree b)] .zero) =
        expr call scope (x.2.backendTree b) >>= fun w =>
          .ok (.bool (x.1.holds v.toFloat w.toFloat)) := by
      rw [expr, hleft, ok_bind, comparisons]
      apply bind_congr
      intro w
      cases x.1.holds v.toFloat w.toFloat <;> rfl
    cases rest with
    | nil =>
      rw [Expr.pairTrees, Expr.pairTrees, connective, hpair, comparisons]
      apply reported_bind h.1
      intro w _
      cases x.1.holds v.toFloat w.toFloat <;> rfl
    | cons y rest =>
      rw [Expr.pairTrees, connective_cons (by simp [Expr.pairTrees]), hpair, bind_assoc,
        comparisons]
      apply reported_bind h.1
      intro w hw
      have hright : expr call scope (x.2.backendTree b) = .ok w :=
        reported_eq_ok.1 (h.1.trans (congrArg reported hw))
      cases hholds : x.1.holds v.toFloat w.toFloat with
      | false => rfl
      | true => exact ih (by simp) hright h.2

theorem reported_backendCompare {rest : List (CmpOp × Expr)} (hne : rest ≠ [])
    (he : reported (expr call scope (e.backendTree b)) = reported (expr call scope e))
    (h : ∀ x ∈ rest, reported (expr call scope (x.2.backendTree b)) =
      reported (expr call scope x.2)) :
    reported (expr call scope ((Expr.compare e rest sp).backendTree b)) =
      reported (expr call scope (.compare e rest sp)) := by
  obtain ⟨x, more, hrest⟩ := List.exists_cons_of_ne_nil hne
  have hpairs : Expr.pairTrees b (e.backendTree b) rest ≠ [] := by
    rw [hrest]
    exact List.cons_ne_nil _ _
  rw [Expr.backendTree, expr_conjunctionTree hpairs, expr]
  cases hv : expr call scope e with
  | ok v =>
    rw [hv] at he
    exact reported_pairTrees hne (reported_eq_ok.1 he) h
  | error f =>
    cases hw : expr call scope (e.backendTree b) with
    | ok v =>
      rw [hv, hw] at he
      cases he
    | error f' =>
      rw [hrest, Expr.pairTrees, connective_error (by rw [expr, hw, error_bind])]
      rw [hv, hw] at he
      exact congrArg Except.error (Except.error.inj he)

/-- The tree that the text for a backend is read as computes what the expression does. -/
theorem reported_backendTree (b : Backend) (hplaces : Unplaced call) (hhelped : Helped call)
    (h : Legible P e) (scope : Scope) :
    reported (expr call scope (e.backendTree b)) = reported (expr call scope e) := by
  induction h with
  | number => rfl
  | bool => rfl
  | var =>
    simp only [Expr.backendTree, expr]
    split <;> rfl
  | @call f args sp _ _ ih =>
    rw [Expr.backendTree, Expr.backendTrees_eq, expr, expr]
    apply reported_bind (reported_exprList ih)
    intro vs _
    exact hplaces _ _ f vs scope
  | @unary e op sp _ ih =>
    cases op with
    | not =>
      cases b with
      | array =>
        rw [Expr.backendTree, expr, expr, exprList, bind_assoc]
        apply reported_bind ih
        intro v _
        exact congrArg reported hhelped.not
      | cpp => exact reported_bind ih fun _ _ => rfl
    | _ => exact reported_bind ih fun _ _ => rfl
  | @binary l r op sp _ _ ihl ihr =>
    rw [Expr.backendTree]
    split
    · apply reported_bind ihl
      intro v _
      exact reported_bind ihr fun _ _ => rfl
    · next hop =>
      simp only [expr, exprList, bind_assoc]
      apply reported_bind ihl
      intro v _
      apply reported_bind ihr
      intro w _
      exact congrArg reported (hhelped.binary (by simpa using hop))
  | compare _ hne _ ihe ihr => exact reported_backendCompare hne ihe ihr
  | logical _ _ ih =>
    rw [Expr.backendTree, Expr.backendTrees_eq, expr, expr]
    exact reported_connective ih

/-- Only the words for the truth values are names in equations but not in rendered texts. -/
theorem Token.IsName.rendered (h : IsName .equation x) (hx : x ∉ ["true", "false"]) :
    IsName .rendered x := by
  refine ⟨?_, h.2⟩
  rw [ofWord_rendered_of_ne hx]
  exact h.1

/-- The text for a backend of an expression that has been read is read, too, and computes the same,
unless a name is a word of the backends or a definition replaces one of their helpers. -/
theorem backend_text_evaluates_alike [Draws] (b : Backend) (hparse : Expr.parse .equation text = .ok e)
    (hnames : ∀ x ∈ ["true", "false"], x ∉ e.identifiers ∧ x ∉ e.functions) :
    ∃ r, Expr.parse .rendered (e.backendText b) = .ok r ∧
      ∀ ds : List Definition, (∀ d ∈ ds, d.name ∉ ["pow", "fmod", "logical_not"]) → ∀ scope,
        reported ((Interpreter.builtin.withDefinitions ds).eval scope r) =
          reported ((Interpreter.builtin.withDefinitions ds).eval scope e) := by
  have hlegible : Legible (IsName .rendered) e := by
    apply (Expr.legible_of_parse hparse).imp
    intro x hx hname
    apply hname.rendered
    intro hword
    exact hx.elim (hnames x hword).1 (hnames x hword).2
  obtain ⟨r, hr, htree⟩ := map_eq_ok.1 (hlegible.written_backendText b).parse
  refine ⟨r, hr, fun ds hds scope => ?_⟩
  have hplaces := unplaced_callWithin (Interpreter.builtin.withDefinitions ds) depthLimit
  have hhelped : Helped (callWithin (Interpreter.builtin.withDefinitions ds) depthLimit) := by
    apply helped_withDefinitions
    intro d hd x hx hname
    exact hds d hd (hname ▸ List.mem_map_of_mem (f := Prod.fst) hx)
  calc reported ((Interpreter.builtin.withDefinitions ds).eval scope r)
      = reported ((Interpreter.builtin.withDefinitions ds).eval scope r.eraseSpans) :=
        (reported_eraseSpans hplaces scope r).symm
    _ = reported ((Interpreter.builtin.withDefinitions ds).eval scope (e.backendTree b)) := by
        rw [htree]
    _ = reported ((Interpreter.builtin.withDefinitions ds).eval scope e) :=
        reported_backendTree b hplaces hhelped hlegible scope

/-- Operands of a chain are computed twice, and some operators are written as calls. -/
theorem backend_text_evaluates_alike_chain :
    let _ : Draws := .middle
    let twice : Definition :=
      ⟨"twice", ["a"], [], some (.binary .add (.var "a" .zero) (.var "a" .zero) .zero)⟩
    ∃ e, Expr.parse .equation "1 < twice(x) % 3 <= -x**2 or not x" = .ok e ∧
      e.backendText .array =
        "((1 < fmod(twice(x), 3)) & (fmod(twice(x), 3) <= -x ** 2)) | (logical_not(x))" ∧
      e.backendText .cpp =
        "((1.0 < fmod(twice(x), 3.0)) && (fmod(twice(x), 3.0) <= -pow(x, 2.0))) || (!(x))" ∧
      ∀ b, ∃ r, Expr.parse .rendered (e.backendText b) = .ok r ∧ ∀ scope,
        reported ((Interpreter.builtin.withDefinitions [twice]).eval scope r) =
          reported ((Interpreter.builtin.withDefinitions [twice]).eval scope e) := by
  intro _ twice
  have hread : (Expr.parse .equation "1 < twice(x) % 3 <= -x**2 or not x").map (fun e =>
      (e.backendText .array, e.backendText .cpp,
        ["true", "false"].any fun x => e.identifiers.contains x || e.functions.contains x)) =
      .ok ("((1 < fmod(twice(x), 3)) & (fmod(twice(x), 3) <= -x ** 2)) | (logical_not(x))",
        "((1.0 < fmod(twice(x), 3.0)) && (fmod(twice(x), 3.0) <= -pow(x, 2.0))) || (!(x))",
        false) := by
    decide +kernel
  obtain ⟨e, he, htexts⟩ := map_eq_ok.1 hread
  simp only [Prod.mk.injEq, List.any_eq_false, Bool.or_eq_true, not_or] at htexts
  obtain ⟨harray, hcpp, hnames⟩ := htexts
  refine ⟨e, he, harray, hcpp, fun b => ?_⟩
  obtain ⟨r, hr, hagree⟩ := backend_text_evaluates_alike b he hnames
  exact ⟨r, hr, hagree [twice] (by decide)⟩

end Formulae
