import Formulae.Proofs.Eval.Connective
import Formulae.Proofs.Eval.Registered
import Formulae.Proofs.Syntax.Names

namespace Formulae.Eval
open Outcome
set_option autoImplicit true

mutual

/-- Within `n` calls of definitions the expression has the value or the fault. -/
inductive Evaluates (fs : Interpreter) : Nat → Scope → Expr → Except Fault Value → Prop
  | number : Evaluates fs n σ (.number s x sp) (.ok (.number x))
  | bool : Evaluates fs n σ (.bool b sp) (.ok (.bool b))
  | var {σ : Scope} : σ[x]? = some v → Evaluates fs n σ (.var x sp) (.ok v)
  | unassigned {σ : Scope} : σ[x]? = none →
      Evaluates fs n σ (.var x sp) (.error (.located (.unassigned x) sp))
  | call : EvaluatesAll fs n σ args (.ok vs) → Returns fs n σ sp f vs r →
      Evaluates fs n σ (.call f args sp) r
  | argument : EvaluatesAll fs n σ args (.error fault) →
      Evaluates fs n σ (.call f args sp) (.error fault)
  | unary : Evaluates fs n σ e r → Evaluates fs n σ (.unary op e sp) (r.map (.unary op))
  | binary : Evaluates fs n σ e₁ (.ok v) → Evaluates fs n σ e₂ r →
      Evaluates fs n σ (.binary op e₁ e₂ sp) (r.map (.binary op v))
  | left : Evaluates fs n σ e₁ (.error fault) →
      Evaluates fs n σ (.binary op e₁ e₂ sp) (.error fault)
  | compare : Evaluates fs n σ e (.ok v) → Compares fs n σ v.toFloat rest r →
      Evaluates fs n σ (.compare e rest sp) r
  | first : Evaluates fs n σ e (.error fault) →
      Evaluates fs n σ (.compare e rest sp) (.error fault)
  | logical : Connects fs n σ op es r → Evaluates fs n σ (.logical op es sp) r

/-- From left to right, up to the first fault. -/
inductive EvaluatesAll (fs : Interpreter) :
    Nat → Scope → List Expr → Except Fault (List Value) → Prop
  | nil : EvaluatesAll fs n σ [] (.ok [])
  | cons : Evaluates fs n σ e (.ok v) → EvaluatesAll fs n σ es r →
      EvaluatesAll fs n σ (e :: es) (r.map (v :: ·))
  | fault : Evaluates fs n σ e (.error fault) → EvaluatesAll fs n σ (e :: es) (.error fault)

/-- The comparisons behind a number, up to the first that does not hold. -/
inductive Compares (fs : Interpreter) :
    Nat → Scope → Float → List (CmpOp × Expr) → Except Fault Value → Prop
  | nil : Compares fs n σ x [] (.ok (.bool true))
  | holds : Evaluates fs n σ e (.ok v) → op.holds x v.toFloat = true →
      Compares fs n σ v.toFloat rest r → Compares fs n σ x ((op, e) :: rest) r
  | fails : Evaluates fs n σ e (.ok v) → op.holds x v.toFloat = false →
      Compares fs n σ x ((op, e) :: rest) (.ok (.bool false))
  | fault : Evaluates fs n σ e (.error fault) →
      Compares fs n σ x ((op, e) :: rest) (.error fault)

/-- The operands of a connective, up to the first that decides it. -/
inductive Connects (fs : Interpreter) :
    Nat → Scope → BoolOp → List Expr → Except Fault Value → Prop
  | nil : Connects fs n σ op [] (.ok (.bool op.identity))
  | last : Evaluates fs n σ e r → Connects fs n σ op [e] r
  | decided : Evaluates fs n σ e (.ok v) → v.decides op = true →
      Connects fs n σ op (e :: e' :: es) (.ok v)
  | undecided : Evaluates fs n σ e (.ok v) → v.decides op = false →
      Connects fs n σ op (e' :: es) r → Connects fs n σ op (e :: e' :: es) r
  | fault : Evaluates fs n σ e (.error fault) →
      Connects fs n σ op (e :: e' :: es) (.error fault)

/-- The statements end with the scope, or stop with a fault. -/
inductive Executes (fs : Interpreter) :
    Nat → Scope → List Statement → Except Stop Scope → Prop
  | nil : Executes fs n σ [] (.ok σ)
  | set : Evaluates fs n σ e (.ok v) → Executes fs n (σ.insert x v) ss r →
      Executes fs n σ (⟨x, .set, e⟩ :: ss) r
  | update {σ : Scope} : Evaluates fs n σ e (.ok v) → σ[x]? = some old →
      Executes fs n (σ.insert x (.binary op old v)) ss r →
      Executes fs n σ (⟨x, .update op, e⟩ :: ss) r
  | missing {σ : Scope} : Evaluates fs n σ e (.ok v) → σ[x]? = none →
      Executes fs n σ (⟨x, .update op, e⟩ :: ss) (.error ⟨{ reason := .updatedUnassigned x }, σ⟩)
  | fault : Evaluates fs n σ s.value (.error fault) →
      Executes fs n σ (s :: ss) (.error ⟨fault, σ⟩)

/-- A call of the function with the values, from the scope, has the value or the fault. -/
inductive Returns (fs : Interpreter) :
    Nat → Scope → Span → String → List Value → Except Fault Value → Prop
  /-- Functions without a body make no calls. -/
  | builtin : (∀ d, fs[f]? ≠ some (.code d)) → Returns fs n σ sp f vs (callWith fs none sp f vs σ)
  | count : fs[f]? = some (.code d) → d.params.length ≠ vs.length →
      Returns fs n σ sp f vs (.error (.located (.argumentCount f d.params.length vs.length) sp))
  | nested : fs[f]? = some (.code d) → d.params.length = vs.length → depthLimit ≤ n →
      Returns fs n σ sp f vs (.error (.located (.nestedCalls f) sp))
  | withoutResult : fs[f]? = some (.code d) → d.params.length = vs.length → n < depthLimit →
      d.result = none → Returns fs n σ sp f vs (.error (.located (.withoutResult f) sp))
  | body : fs[f]? = some (.code d) → d.params.length = vs.length → n < depthLimit →
      d.result = some e → Executes fs (n + 1) (bodyScope d vs σ) d.body (.error stop) →
      Returns fs n σ sp f vs (.error stop.fault)
  | result : fs[f]? = some (.code d) → d.params.length = vs.length → n < depthLimit →
      d.result = some e → Executes fs (n + 1) (bodyScope d vs σ) d.body (.ok τ) →
      Evaluates fs (n + 1) τ e r → Returns fs n σ sp f vs r

end

variable {fs : Interpreter} {call : Caller}

theorem evaluatesAll_iff (h : ∀ e ∈ es, ∀ r, Evaluates fs n σ e r ↔ expr call σ e = r) :
    EvaluatesAll fs n σ es r ↔ exprList call σ es = r := by
  induction es generalizing r with
  | nil =>
    constructor
    · rintro ⟨⟩
      rfl
    · rintro rfl
      exact .nil
  | cons e es ih =>
    rw [List.forall_mem_cons] at h
    constructor
    · intro hr
      cases hr with
      | cons he hes =>
        rw [exprList, (h.1 _).1 he, ok_bind, (ih h.2).1 hes]
        rfl
      | fault he => rw [exprList, (h.1 _).1 he, error_bind]
    · rintro rfl
      rw [exprList]
      cases hv : expr call σ e with
      | error fault => exact .fault ((h.1 _).2 hv)
      | ok v => exact .cons ((h.1 _).2 hv) ((ih h.2).2 rfl)

theorem compares_iff (h : ∀ x ∈ rest, ∀ r, Evaluates fs n σ x.2 r ↔ expr call σ x.2 = r) :
    Compares fs n σ left rest r ↔ comparisons call σ left rest = r := by
  induction rest generalizing left r with
  | nil =>
    constructor
    · rintro ⟨⟩
      rfl
    · rintro rfl
      exact .nil
  | cons x rest ih =>
    obtain ⟨op, e⟩ := x
    rw [List.forall_mem_cons] at h
    constructor
    · intro hr
      cases hr with
      | holds he hop hrest =>
        rw [comparisons, (h.1 _).1 he, ok_bind, if_pos hop, (ih h.2).1 hrest]
      | fails he hop =>
        rw [comparisons, (h.1 _).1 he, ok_bind, if_neg (Bool.eq_false_iff.1 hop)]
      | fault he => rw [comparisons, (h.1 _).1 he, error_bind]
    · rintro rfl
      rw [comparisons]
      cases hv : expr call σ e with
      | error fault => exact .fault ((h.1 _).2 hv)
      | ok v =>
        rw [ok_bind]
        split
        · next hop => exact .holds ((h.1 _).2 hv) hop ((ih h.2).2 rfl)
        · next hop => exact .fails ((h.1 _).2 hv) (Bool.eq_false_iff.2 hop)

theorem connects_iff (h : ∀ e ∈ es, ∀ r, Evaluates fs n σ e r ↔ expr call σ e = r) :
    Connects fs n σ op es r ↔ connective call σ op es = r := by
  induction es generalizing r with
  | nil =>
    constructor
    · rintro ⟨⟩
      rfl
    · rintro rfl
      exact .nil
  | cons e es ih =>
    rw [List.forall_mem_cons] at h
    cases es with
    | nil =>
      constructor
      · intro hr
        cases hr with
        | last he => exact (h.1 _).1 he
      · rintro rfl
        exact .last ((h.1 _).2 rfl)
    | cons e' es =>
      rw [connective_cons (List.cons_ne_nil e' es)]
      constructor
      · intro hr
        cases hr with
        | decided he hop => rw [(h.1 _).1 he, ok_bind, if_pos hop]
        | undecided he hop hes =>
          rw [(h.1 _).1 he, ok_bind, if_neg (Bool.eq_false_iff.1 hop), (ih h.2).1 hes]
        | fault he => rw [(h.1 _).1 he, error_bind]
      · rintro rfl
        cases hv : expr call σ e with
        | error fault => exact .fault ((h.1 _).2 hv)
        | ok v =>
          rw [ok_bind]
          split
          · next hop => exact .decided ((h.1 _).2 hv) hop
          · next hop =>
            exact .undecided ((h.1 _).2 hv) (Bool.eq_false_iff.2 hop) ((ih h.2).2 rfl)

/-- The rules for expressions are what evaluation does, if those for calls are what calls mean. -/
theorem evaluates_iff (hcall : ∀ sp f vs σ r, Returns fs n σ sp f vs r ↔ call sp f vs σ = r) :
    Evaluates fs n σ e r ↔ expr call σ e = r := by
  induction e using Expr.induct generalizing r with
  | number =>
    constructor
    · rintro ⟨⟩
      rfl
    · rintro rfl
      exact .number
  | bool =>
    constructor
    · rintro ⟨⟩
      rfl
    · rintro rfl
      exact .bool
  | var x sp =>
    rw [expr]
    constructor
    · intro hr
      cases hr with
      | var hx => rw [hx]
      | unassigned hx => rw [hx]
    · rintro rfl
      cases hx : σ[x]? with
      | some v => exact .var hx
      | none => exact .unassigned hx
  | call f args sp ih =>
    have hargs {r} : EvaluatesAll fs n σ args r ↔ exprList call σ args = r :=
      evaluatesAll_iff fun e he r => ih e he
    rw [expr]
    constructor
    · intro hr
      cases hr with
      | call hvs hr => rw [hargs.1 hvs, ok_bind, (hcall _ _ _ _ _).1 hr]
      | argument hvs => rw [hargs.1 hvs, error_bind]
    · rintro rfl
      cases hvs : exprList call σ args with
      | error fault => exact .argument (hargs.2 hvs)
      | ok vs => exact .call (hargs.2 hvs) ((hcall _ _ _ _ _).2 rfl)
  | unary op e sp ih =>
    constructor
    · intro hr
      cases hr with
      | unary he =>
        rw [expr, ih.1 he]
        rfl
    · rintro rfl
      exact .unary (ih.2 rfl)
  | binary op l r sp ihl ihr =>
    constructor
    · intro hr
      cases hr with
      | binary hl hr =>
        rw [expr, ihl.1 hl, ok_bind, ihr.1 hr]
        rfl
      | left hl => rw [expr, ihl.1 hl, error_bind]
    · rintro rfl
      rw [expr]
      cases hv : expr call σ l with
      | error fault => exact .left (ihl.2 hv)
      | ok v => exact .binary (ihl.2 hv) (ihr.2 rfl)
  | compare e rest sp ihe ihr =>
    have hrest {left r} : Compares fs n σ left rest r ↔ comparisons call σ left rest = r :=
      compares_iff fun x hx r => ihr x hx
    constructor
    · intro hr
      cases hr with
      | compare he hr => rw [expr, ihe.1 he, ok_bind, hrest.1 hr]
      | first he => rw [expr, ihe.1 he, error_bind]
    · rintro rfl
      rw [expr]
      cases hv : expr call σ e with
      | error fault => exact .first (ihe.2 hv)
      | ok v => exact .compare (ihe.2 hv) (hrest.2 rfl)
  | logical op es sp ih =>
    have hes {r} : Connects fs n σ op es r ↔ connective call σ op es = r :=
      connects_iff fun e he r => ih e he
    constructor
    · intro hr
      cases hr with
      | logical hr => exact hes.1 hr
    · intro hr
      exact .logical (hes.2 hr)

theorem executes_iff (hcall : ∀ sp f vs σ r, Returns fs n σ sp f vs r ↔ call sp f vs σ = r) :
    Executes fs n σ ss r ↔ statements call σ ss = r := by
  induction ss generalizing σ r with
  | nil =>
    constructor
    · rintro ⟨⟩
      rfl
    · rintro rfl
      exact .nil
  | cons s ss ih =>
    constructor
    · intro hr
      cases hr with
      | set he hss =>
        simp only [statements, assigned, (evaluates_iff hcall).1 he, ok_bind]
        exact ih.1 hss
      | update he hx hss =>
        simp only [statements, assigned, (evaluates_iff hcall).1 he, ok_bind, hx]
        exact ih.1 hss
      | missing he hx => simp only [statements, assigned, (evaluates_iff hcall).1 he, ok_bind, hx]
      | fault he => simp only [statements, assigned, (evaluates_iff hcall).1 he, error_bind]
    · rintro rfl
      obtain ⟨x, op, e⟩ := s
      rw [statements, assigned]
      cases hv : expr call σ e with
      | error fault => exact .fault ((evaluates_iff hcall).2 hv)
      | ok v =>
        have he := (evaluates_iff hcall).2 hv
        cases op with
        | set => exact .set he (ih.2 rfl)
        | update op =>
          simp only [ok_bind]
          cases hx : σ[x]? with
          | some old => exact .update he hx (ih.2 rfl)
          | none => exact .missing he hx

theorem returns_builtin_iff (hcode : ∀ d, fs[f]? ≠ some (.code d)) (inner : Option Caller) :
    Returns fs n σ sp f vs r ↔ callWith fs inner sp f vs σ = r := by
  rw [callWith_of_ne_code hcode inner none σ σ]
  constructor
  · intro hr
    cases hr with
    | builtin => rfl
    | count hd | nested hd | withoutResult hd | body hd | result hd => exact absurd hd (hcode _)
  · rintro rfl
    exact .builtin hcode

theorem returns_nested_iff (hd : fs[f]? = some (.code d)) (hn : depthLimit ≤ n) :
    Returns fs n σ sp f vs r ↔ callWith fs none sp f vs σ = r := by
  simp only [callWith, hd, checkCount]
  constructor
  · intro hr
    cases hr with
    | builtin hcode => exact absurd hd (hcode d)
    | count hd' hlen =>
      cases hd.symm.trans hd'
      rw [if_neg hlen, error_bind]
    | nested hd' hlen =>
      cases hd.symm.trans hd'
      rw [if_pos hlen, ok_bind]
    | withoutResult _ _ hlt | body _ _ hlt | result _ _ hlt => omega
  · rintro rfl
    split
    · next hlen => exact .nested hd hlen hn
    · next hlen => exact .count hd hlen

/-- The body and the result of a definition are one call deeper. -/
theorem returns_code_iff (hd : fs[f]? = some (.code d)) (hn : n < depthLimit)
    (hcall : ∀ sp f vs σ r, Returns fs (n + 1) σ sp f vs r ↔ call sp f vs σ = r) :
    Returns fs n σ sp f vs r ↔ callWith fs (some call) sp f vs σ = r := by
  simp only [callWith, hd, checkCount]
  constructor
  · intro hr
    cases hr with
    | builtin hcode => exact absurd hd (hcode d)
    | count hd' hlen =>
      cases hd.symm.trans hd'
      rw [if_neg hlen, error_bind]
    | nested _ _ hle => omega
    | withoutResult hd' hlen _ hresult =>
      cases hd.symm.trans hd'
      rw [if_pos hlen, ok_bind, hresult]
    | body hd' hlen _ hresult hrun =>
      cases hd.symm.trans hd'
      simp only [if_pos hlen, ok_bind, hresult, (executes_iff hcall).1 hrun]
    | result hd' hlen _ hresult hrun he =>
      cases hd.symm.trans hd'
      simp only [if_pos hlen, ok_bind, hresult, (executes_iff hcall).1 hrun]
      exact (evaluates_iff hcall).1 he
  · rintro rfl
    split
    · next hlen =>
      rw [ok_bind]
      cases hresult : d.result with
      | none => exact .withoutResult hd hlen hn hresult
      | some e =>
        dsimp only
        cases hrun : statements call (bodyScope d vs σ) d.body with
        | error stop => exact .body hd hlen hn hresult ((executes_iff hcall).2 hrun)
        | ok τ =>
          exact .result hd hlen hn hresult ((executes_iff hcall).2 hrun)
            ((evaluates_iff hcall).2 rfl)
    · next hlen => exact .count hd hlen

/-- By induction on how much deeper calls may nest. -/
theorem returns_iff (hn : n + m = depthLimit) :
    Returns fs n σ sp f vs r ↔ callWithin fs m sp f vs σ = r := by
  induction m generalizing n σ sp f vs r with
  | zero =>
    by_cases hcode : ∃ d, fs[f]? = some (.code d)
    · obtain ⟨d, hd⟩ := hcode
      exact returns_nested_iff hd (by omega)
    · exact returns_builtin_iff (not_exists.1 hcode) none
  | succ m ih =>
    by_cases hcode : ∃ d, fs[f]? = some (.code d)
    · obtain ⟨d, hd⟩ := hcode
      exact returns_code_iff hd (by omega) fun _ _ _ _ _ => ih (by omega)
    · exact returns_builtin_iff (not_exists.1 hcode) _

end Formulae.Eval
