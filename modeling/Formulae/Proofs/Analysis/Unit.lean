import Formulae.Builtins
import Formulae.Proofs.Analysis.Constant
import Mathlib.Tactic.ByContra

namespace Formulae
open Outcome
set_option autoImplicit true

namespace Expr

variable [Closeness] {env : Environment} {e : Expr}

theorem unit_of_unitList (h : unitList env es = .ok ds) : ∀ e ∈ es, ∃ d, e.unit env = .ok d := by
  induction es generalizing ds with
  | nil => nofun
  | cons e es ih =>
    obtain ⟨d, hd, h⟩ := bind_eq_ok.1 h
    obtain ⟨_, hds, -⟩ := bind_eq_ok.1 h
    exact List.forall_mem_cons.2 ⟨⟨d, hd⟩, ih hds⟩

theorem unit_of_unitOfRest (h : unitOfRest env whole c rest = .ok u) :
    ∀ x ∈ rest, ∃ d, x.2.unit env = .ok d := by
  induction rest generalizing c with
  | nil => nofun
  | cons x rest ih =>
    obtain ⟨d, hd, h⟩ := bind_eq_ok.1 h
    split at h
    · exact List.forall_mem_cons.2 ⟨⟨d, hd⟩, ih h⟩
    · cases h

/-- No operand is passed over, whatever the unit of the node is made of. -/
theorem unit_of_operand (h : e.unit env = .ok d) : ∀ e' ∈ e.operands, ∃ c, e'.unit env = .ok c := by
  cases e with
  | number => nofun
  | bool => nofun
  | var => nofun
  | call f args sp =>
    obtain ⟨_, -, h⟩ := bind_eq_ok.1 h
    obtain ⟨_, hargs, -⟩ := bind_eq_ok.1 h
    exact unit_of_unitList hargs
  | unary op e sp =>
    obtain ⟨c, hc, -⟩ := bind_eq_ok.1 h
    exact List.forall_mem_singleton.2 ⟨c, hc⟩
  | binary op l r sp =>
    obtain ⟨c, hl, h⟩ := bind_eq_ok.1 h
    obtain ⟨c', hr, -⟩ := bind_eq_ok.1 h
    exact List.forall_mem_cons.2 ⟨⟨c, hl⟩, List.forall_mem_singleton.2 ⟨c', hr⟩⟩
  | compare e rest sp =>
    obtain ⟨c, hc, h⟩ := bind_eq_ok.1 h
    obtain ⟨_, hrest, -⟩ := bind_eq_ok.1 h
    exact List.forall_mem_cons.2 ⟨⟨c, hc⟩, List.forall_mem_map.2 (unit_of_unitOfRest hrest)⟩
  | logical op es sp =>
    obtain ⟨_, hes, -⟩ := bind_eq_ok.1 h
    exact unit_of_unitList hes

theorem unit_of_contains (hc : e.Contains p) (h : e.unit env = .ok d) :
    ∃ e' c, p e' ∧ e'.unit env = .ok c := by
  induction hc generalizing d with
  | here hp => exact ⟨_, d, hp, h⟩
  | operand he _ ih =>
    obtain ⟨_, h⟩ := unit_of_operand h _ he
    exact ih h

omit [Closeness] in
theorem calledFunction_eq_ok : calledFunction env f count sp = .ok fn ↔
    env.functions[f]? = some fn ∧ ∀ n, fn.arity = some n → n = count := by
  rw [calledFunction]
  cases env.functions[f]? with
  | none => simp
  | some g => cases harity : g.arity <;> grind

/-- The names in an expression with a unit are known, by induction on its operands. -/
theorem named_of_unit (h : e.unit env = .ok d) : e.Named (· ∈ env.vars) (· ∈ env.functions) := by
  induction e using inductOperands generalizing d with
  | node e ih =>
    refine named_iff.2 ⟨fun x hx => ?_, fun f hf => ?_, fun e' he => ?_⟩
    · cases e <;> cases hx
      by_contra hnot
      rw [unit, Std.ExtTreeMap.getElem?_eq_none hnot] at h
      cases h
    · cases e <;> cases hf
      obtain ⟨_, hfn, -⟩ := bind_eq_ok.1 h
      exact Table.mem_iff_getElem?.2 ⟨_, (calledFunction_eq_ok.1 hfn).1⟩
    · obtain ⟨_, h⟩ := unit_of_operand h e' he
      exact ih e' he h

end Expr

/-- If an expression has a unit, then so does each of its parts; the variables that are read and
the functions that are called anywhere in it are known, and the calls have as many arguments as the
functions ask for. -/
theorem unit_checked_throughout [Closeness] {e : Expr} (h : e.unit env = .ok d) :
    (∀ e', e.Contains (· = e') → ∃ c, e'.unit env = .ok c) ∧
    (∀ x ∈ e.identifiers, x ∈ env.vars) ∧
    (∀ f ∈ e.functions, f ∈ env.functions) ∧
    ∀ f args sp, e.Contains (· = .call f args sp) →
      ∃ fn, env.functions[f]? = some fn ∧ ∀ n, fn.arity = some n → n = args.length := by
  have hparts (e') (hc : e.Contains (· = e')) : ∃ c, e'.unit env = .ok c := by
    obtain ⟨_, c, rfl, hunit⟩ := Expr.unit_of_contains hc h
    exact ⟨c, hunit⟩
  obtain ⟨hvars, hfunctions⟩ := Expr.named_of_unit h
  refine ⟨hparts, hvars, hfunctions, fun f args sp hc => ?_⟩
  obtain ⟨_, hcall⟩ := hparts _ hc
  obtain ⟨fn, hfn, -⟩ := bind_eq_ok.1 hcall
  exact ⟨fn, Expr.calledFunction_eq_ok.1 hfn⟩

/-- Operands that the result does not depend on are checked, too: the remainder by a power, what
`not` is applied to, and all operands of `and`. -/
theorem unit_checked_throughout_discarded :
    let _ : Draws := .middle
    let _ : Closeness := ⟨fun _ _ x y => x == y, fun _ _ _ _ h => h⟩
    let env : Environment := { Environment.builtin with
      vars := .ofList [("x", .ofValue .metre 3), ("n", .ofValue .dimensionless 2)] }
    let x : Expr := .var "x" .zero
    let power : Expr := .binary .pow (.var "n" .zero) (.var "n" .zero) .zero
    let called : Expr := .call "clip" [x, x, x] .zero
    let e : Expr := .logical .and [.unary .not (.binary .mod x power .zero) .zero,
      .compare x [(.lt, called)] .zero] .zero
    ∃ d, e.unit env = .ok d ∧ (∃ c, power.unit env = .ok c) ∧ "n" ∈ env.vars ∧
      "clip" ∈ env.functions ∧ ∃ fn, env.functions["clip"]? = some fn ∧
        ∀ n, fn.arity = some n → n = 3 := by
  intro _ _ env x power called e
  have hunit : (e.unit env).toOption.isSome = true := by decide +kernel
  obtain ⟨d, hd⟩ := Option.isSome_iff_exists.1 hunit
  have h := toOption_eq_some.1 hd
  obtain ⟨hparts, hvars, hfunctions, hcalls⟩ := unit_checked_throughout h
  have hpower : e.Contains (· = power) :=
    .operand List.mem_cons_self (.operand List.mem_cons_self
      (.operand (List.mem_cons_of_mem _ List.mem_cons_self) (.here rfl)))
  have hcalled : e.Contains (· = called) :=
    .operand (List.mem_cons_of_mem _ List.mem_cons_self)
      (.operand (List.mem_cons_of_mem _ List.mem_cons_self) (.here rfl))
  exact ⟨d, h, hparts _ hpower, hvars "n" (by decide), hfunctions "clip" (by decide),
    hcalls _ _ _ hcalled⟩

end Formulae
