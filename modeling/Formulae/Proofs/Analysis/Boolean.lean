import Formulae.Analysis
import Formulae.Proofs.Eval.Connective
import Formulae.Proofs.Eval.Registered
import Formulae.Proofs.Syntax.Names

namespace Formulae
open Eval Outcome
set_option autoImplicit true

/-- The variables that hold truth values are those that are known to. -/
def Environment.Describes (env : Environment) (σ : Scope) : Prop :=
  ∀ (x : String) (v : Value), σ[x]? = some v → v.isBool = (env.vars[x]?.map Variable.isBool).getD false

namespace Builtins

theorem returnsBool_eq_false [Draws] {f : String} {fn : Function} (h : functions[f]? = some fn) :
    fn.returnsBool = false := by
  have hall : ∀ x ∈ entries, x.2.returnsBool = false := by
    simp [entries, ofNumbers, ofQuantities, ofOne, random]
  exact hall _ (Table.mem_of_getElem?_ofList h)

theorem ne_logical_not [Draws] {f : String} (h : functions[f]? = some fn) : f ≠ "logical_not" := by
  have hall : "logical_not" ∉ entries.map Prod.fst := by
    simp [entries, ofNumbers, ofQuantities]
  rintro rfl
  exact hall (List.mem_map_of_mem (Table.mem_of_getElem?_ofList h))

end Builtins

/-- The only function that gives a truth value is one that the backends need. -/
theorem Interpreter.eq_logical_not [Draws] (h : builtin[f]? = some (.predicate n g)) :
    f = "logical_not" := by
  have hmem := Table.mem_of_getElem?_ofList h
  rw [List.mem_append, List.mem_filterMap] at hmem
  rcases hmem with ⟨⟨name, fn⟩, -, hfn⟩ | hmem
  · obtain ⟨_, -, hfn⟩ := Option.map_eq_some_iff.1 hfn
    cases hfn
  · simp only [helpers, List.mem_cons, List.not_mem_nil, or_false, Prod.mk.injEq, reduceCtorEq,
      and_false, false_or] at hmem
    exact hmem.1

namespace Eval

theorem isBool_callWith [Draws] {inner : Option Caller} (hf : Builtins.functions[f]? = some fn)
    (hv : callWith Interpreter.builtin inner sp f args σ = .ok v) : v.isBool = fn.returnsBool := by
  rw [Builtins.returnsBool_eq_false hf]
  rw [callWith] at hv
  cases hc : Interpreter.builtin[f]? with
  | none =>
    rw [hc] at hv
    cases hv
  | some c =>
    rw [hc] at hv
    cases c with
    | native arity g =>
      obtain ⟨_, -, hv⟩ := bind_eq_ok.1 hv
      cases hv
      rfl
    | predicate arity g =>
      exact absurd (Interpreter.eq_logical_not hc) (Builtins.ne_logical_not hf)
    | code d => exact absurd hc (Interpreter.builtin_ne_code f d)

theorem isBool_callWithin [Draws] (hf : Builtins.functions[f]? = some fn)
    (hv : callWithin Interpreter.builtin depth sp f args σ = .ok v) :
    v.isBool = fn.returnsBool := by
  cases depth with
  | zero => exact isBool_callWith hf hv
  | succ depth => exact isBool_callWith hf hv

theorem isBool_comparisons (h : comparisons call σ left rest = .ok v) : v.isBool = true := by
  induction rest generalizing left with
  | nil =>
    cases h
    rfl
  | cons x rest ih =>
    obtain ⟨w, -, h⟩ := bind_eq_ok.1 h
    split at h
    · exact ih h
    · cases h
      rfl

/-- Whichever operand decides a connective, it is one of them. -/
theorem isBool_connective (hes : ∀ e ∈ es, ∀ w, expr call σ e = .ok w → w.isBool = true)
    (h : connective call σ op es = .ok v) : v.isBool = true := by
  induction es with
  | nil =>
    cases h
    rfl
  | cons e es ih =>
    rw [List.forall_mem_cons] at hes
    cases es with
    | nil => exact hes.1 v h
    | cons e' es =>
      obtain ⟨w, hw, h⟩ := bind_eq_ok.1 h
      split at h
      · cases h
        exact hes.1 _ hw
      · exact ih hes.2 h

end Eval

theorem Expr.isBoolean_of_areBoolean (h : areBoolean env whole es = .ok u) :
    ∀ e ∈ es, e.isBoolean env = .ok true := by
  induction es with
  | nil => nofun
  | cons e es ih =>
    obtain ⟨b, hb, h⟩ := bind_eq_ok.1 h
    cases b with
    | false => cases h
    | true => exact List.forall_mem_cons.2 ⟨hb, ih h⟩

theorem Environment.Describes.isBool_var {env : Environment} (h : env.Describes σ)
    (hv : expr call σ (.var x sp) = .ok v) :
    v.isBool = (env.vars[x]?.map Variable.isBool).getD false := by
  rw [expr] at hv
  cases hx : σ[x]? with
  | none =>
    rw [hx] at hv
    cases hv
  | some w =>
    rw [hx] at hv
    cases hv
    exact h x _ hx

theorem Expr.isBool_unary {e : Expr} (h : (Expr.unary op e sp).isBoolean env = .ok b) (v : Value) :
    (Value.unary op v).isBool = b := by
  cases op with
  | not =>
    obtain ⟨t, ht, h⟩ := bind_eq_ok.1 h
    cases t with
    | false => cases h
    | true =>
      cases h
      rfl
  | pos =>
    cases h
    rfl
  | neg =>
    cases h
    rfl

theorem isBool_call [Draws] (hb : (Expr.call f args sp).isBoolean env = .ok b)
    (hfunctions : env.functions = Builtins.functions)
    (hv : expr (callWithin Interpreter.builtin depth) σ (.call f args sp) = .ok v) :
    v.isBool = b := by
  obtain ⟨vs, -, hv⟩ := bind_eq_ok.1 hv
  rw [Expr.isBoolean, hfunctions] at hb
  cases hf : Builtins.functions[f]? with
  | none =>
    rw [hf] at hb
    cases hb
  | some fn =>
    rw [hf] at hb
    cases hb
    exact isBool_callWithin hf hv

/-- What is told of an expression of builtin functions is so of each of its values. -/
theorem isBoolean_sound [Draws] {e : Expr} (hfunctions : env.functions = Builtins.functions)
    (hb : e.isBoolean env = .ok b) (hσ : env.Describes σ)
    (hv : Interpreter.builtin.eval σ e = .ok v) : v.isBool = b := by
  rw [Interpreter.eval] at hv
  induction e using Expr.induct generalizing b v with
  | number s x sp =>
    cases hb
    cases hv
    rfl
  | bool t sp =>
    cases hb
    cases hv
    rfl
  | var x sp =>
    cases hb
    exact hσ.isBool_var hv
  | call f args sp ih => exact isBool_call hb hfunctions hv
  | unary op e sp ih =>
    obtain ⟨w, -, hv⟩ := bind_eq_ok.1 hv
    cases hv
    exact Expr.isBool_unary hb w
  | binary op l r sp ihl ihr =>
    obtain ⟨_, -, hv⟩ := bind_eq_ok.1 hv
    obtain ⟨_, -, hv⟩ := bind_eq_ok.1 hv
    cases hb
    cases hv
    rfl
  | compare e rest sp ihe ihr =>
    obtain ⟨_, -, hv⟩ := bind_eq_ok.1 hv
    cases hb
    exact isBool_comparisons hv
  | logical op es sp ih =>
    -- Which operand decides is not known, but each is always True or False.
    obtain ⟨_, hes, hb⟩ := bind_eq_ok.1 hb
    cases hb
    exact isBool_connective
      (fun e he w hw => ih e he (Expr.isBoolean_of_areBoolean hes e he) hw) hv

/-- The value of a connective of truth values is one, and so is what `not` makes of it. -/
theorem isBoolean_negated_connective :
    let _ : Draws := .middle
    let env : Environment := { Environment.builtin with vars := .ofList [("on", Variable.flag)] }
    let σ : Scope := .ofList [("on", .bool true)]
    let e : Expr := .unary .not (.logical .and [.var "on" .zero, .bool true .zero] .zero) .zero
    e.isBoolean env = .ok true ∧ env.Describes σ ∧
      ∃ v, Interpreter.builtin.eval σ e = .ok v ∧ v.isBool = true := by
  intro _ env σ e
  have hb : e.isBoolean env = .ok true := by rfl
  have hσ : env.Describes σ := by
    intro x v hx
    cases List.mem_singleton.1 (Table.mem_of_getElem?_ofList hx)
    rfl
  have hv : Interpreter.builtin.eval σ e = .ok (.bool false) := by rfl
  exact ⟨hb, hσ, _, hv, isBoolean_sound rfl hb hσ hv⟩

end Formulae
