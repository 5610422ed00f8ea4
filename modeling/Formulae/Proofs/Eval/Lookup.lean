import Formulae.Dependencies
import Formulae.Proofs.Eval.Registered
import Formulae.Proofs.Syntax.Operands

namespace Formulae
open Outcome
set_option autoImplicit true

/-- If a name has been looked up in vain, then it is one of these. -/
def Fault.MissesOnly (P : String → Prop) (f : Fault) : Prop :=
  f.code = .unknownIdentifier →
    ∃ x, P x ∧ (f.reason = .unassigned x ∨ f.reason = .updatedUnassigned x)

namespace Eval

variable {call : Caller} {σ τ : Scope} {P : String → Prop}

/-- Calls fail for other reasons than names without a value. -/
def FindsNames (call : Caller) : Prop :=
  ∀ sp f args σ e, call sp f args σ = .error e → e.code ≠ .unknownIdentifier

/-- A call of a function without a body fails for its name or the number of its arguments. -/
theorem callWith_error {fs : Interpreter} {inner : Option Caller}
    (hcode : ∀ d, fs[f]? ≠ some (.code d)) (h : callWith fs inner sp f args σ = .error e) :
    e.code = .unknownFunction ∨ e.code = .badArgCount := by
  simp only [callWith, checkCount] at h
  cases hc : fs[f]? with
  | none =>
    rw [hc] at h
    cases h
    exact .inl rfl
  | some c =>
    rw [hc] at h
    cases c with
    | code d => exact absurd hc (hcode d)
    | native arity g | predicate arity g =>
      dsimp only at h
      split at h
      · cases h
      · cases h
        exact .inr rfl

theorem findsNames_callWith {fs : Interpreter} (inner : Option Caller)
    (hfs : ∀ (f : String) (d : Definition), fs[f]? ≠ some (.code d)) :
    FindsNames (callWith fs inner) := by
  intro sp f args σ e h hcode
  have hcodes := callWith_error (hfs f) h
  rw [hcode] at hcodes
  rcases hcodes with hcodes | hcodes <;> cases hcodes

variable {E : Fault → Prop}

theorem failsOnly_exprList {es : List Expr} (h : ∀ e ∈ es, FailsOnly E (expr call σ e)) :
    FailsOnly E (exprList call σ es) := by
  induction es with
  | nil => exact .ok _
  | cons e es ih =>
    rw [List.forall_mem_cons] at h
    exact h.1.bind fun v => (ih h.2).bind fun vs => .ok _

theorem failsOnly_connective {es : List Expr} (h : ∀ e ∈ es, FailsOnly E (expr call σ e)) :
    FailsOnly E (connective call σ op es) := by
  induction es with
  | nil => exact .ok _
  | cons e es ih =>
    rw [List.forall_mem_cons] at h
    cases es with
    | nil => exact h.1
    | cons =>
      apply h.1.bind
      intro v
      split
      · exact .ok _
      · exact ih h.2

theorem failsOnly_comparisons {rest : List (CmpOp × Expr)}
    (h : ∀ r ∈ rest, FailsOnly E (expr call σ r.2)) (left : Float) :
    FailsOnly E (comparisons call σ left rest) := by
  induction rest generalizing left with
  | nil => exact .ok _
  | cons r rest ih =>
    rw [List.forall_mem_cons] at h
    apply h.1.bind
    intro v
    split
    · exact ih h.2 _
    · exact .ok _

/-- An evaluation fails only for a variable without a value, and where a call does. -/
theorem failsOnly_expr {e : Expr}
    (hvars : ∀ x ∈ e.identifiers, ∀ sp, σ[x]? = none → E (.located (.unassigned x) sp))
    (hcalls : ∀ f ∈ e.functions, ∀ sp vs, FailsOnly E (call sp f vs σ)) :
    FailsOnly E (expr call σ e) := by
  induction e using Expr.inductOperands with
  | node e ih =>
    have hoperands : ∀ e' ∈ e.operands, FailsOnly E (expr call σ e') := by
      intro e' he'
      apply ih e' he'
      · exact fun x hx => hvars x (Expr.mem_identifiers.2 (.inr ⟨e', he', hx⟩))
      · exact fun f hf => hcalls f (Expr.mem_functions.2 (.inr ⟨e', he', hf⟩))
    cases e with
    | number => exact .ok _
    | bool => exact .ok _
    | var x sp =>
      rw [expr]
      cases hx : σ[x]? with
      | some v => exact .ok _
      | none => exact .error (hvars x (Expr.mem_identifiers.2 (.inl rfl)) sp hx)
    | call f args sp =>
      apply (failsOnly_exprList hoperands).bind
      exact hcalls f (Expr.mem_functions.2 (.inl rfl)) sp
    | unary op e sp => exact (hoperands e List.mem_cons_self).bind fun v => .ok _
    | binary op l r sp =>
      simp only [Expr.operands, List.forall_mem_cons] at hoperands
      exact hoperands.1.bind fun v => hoperands.2.1.bind fun w => .ok _
    | compare e rest sp =>
      rw [Expr.operands, List.forall_mem_cons, List.forall_mem_map] at hoperands
      exact hoperands.1.bind fun v => failsOnly_comparisons hoperands.2 _
    | logical op es sp => exact failsOnly_connective hoperands

/-- An update looks up its target as well. -/
theorem failsOnly_assigned {s : Statement}
    (hvars : ∀ x ∈ s.reads, σ[x]? = none →
      (∀ sp, E (.located (.unassigned x) sp)) ∧ E { reason := .updatedUnassigned x })
    (hcalls : ∀ f ∈ s.value.functions, ∀ sp vs, FailsOnly E (call sp f vs σ)) :
    FailsOnly E (assigned call σ s) := by
  obtain ⟨target, op, value⟩ := s
  cases op with
  | set =>
    have hvalue := failsOnly_expr (fun x hx sp hnone => (hvars x hx hnone).1 sp) hcalls
    exact hvalue.bind fun v => .ok _
  | update op =>
    have hvalue := failsOnly_expr
      (fun x hx sp hnone => (hvars x (mem_insert_iff.2 (.inr hx)) hnone).1 sp) hcalls
    apply hvalue.bind
    intro v
    dsimp only
    cases hx : σ[target]? with
    | some old => exact .ok _
    | none => exact .error (hvars target (mem_insert_iff.2 (.inl rfl)) hx).2

theorem missesOnly_assigned (hcall : FindsNames call) {s : Statement}
    (h : ∀ x ∈ s.reads, σ[x]? = none → P x) :
    FailsOnly (Fault.MissesOnly P) (assigned call σ s) := by
  apply failsOnly_assigned
  · intro x hx hnone
    exact ⟨fun sp _ => ⟨x, h x hx hnone, .inl rfl⟩, fun _ => ⟨x, h x hx hnone, .inr rfl⟩⟩
  · intro f _ sp vs e he hcode
    exact absurd hcode (hcall sp f vs σ e he)

/-- By induction on the statements: the names in `defined` have values all along. -/
theorem missesOnly_statements (hcall : FindsNames call) {ss : List Statement} (defined : Names)
    (hσ : ∀ x ∈ defined, ∃ v, σ[x]? = some v) :
    FailsOnly (fun stop => stop.fault.MissesOnly (· ∈ Statement.undefinedReads defined ss))
      (statements call σ ss) := by
  induction ss generalizing defined σ with
  | nil => exact .ok _
  | cons s ss ih =>
    have hassigned : FailsOnly (Fault.MissesOnly (· ∈ s.reads \ defined)) (assigned call σ s) := by
      apply missesOnly_assigned hcall
      intro x hx hnone
      refine mem_sdiff_iff.2 ⟨hx, fun hdefined => ?_⟩
      obtain ⟨v, hv⟩ := hσ x hdefined
      rw [hnone] at hv
      cases hv
    rw [statements]
    cases ha : assigned call σ s with
    | error f =>
      apply FailsOnly.error
      intro hcode
      obtain ⟨x, hx, hreason⟩ := hassigned f ha hcode
      exact ⟨x, mem_union_iff.2 (.inl hx), hreason⟩
    | ok v =>
      have hstep : ∀ x ∈ defined.insert s.target, ∃ w, (σ.insert s.target v)[x]? = some w := by
        intro x hx
        rw [Table.getElem?_insert]
        split
        · exact ⟨v, rfl⟩
        · next hne => exact hσ x ((mem_insert_iff.1 hx).resolve_left hne)
      intro stop hstop hcode
      obtain ⟨x, hx, hreason⟩ := ih (defined.insert s.target) hstep stop hstop hcode
      exact ⟨x, mem_union_iff.2 (.inr hx), hreason⟩

theorem findsNames_callWithin {fs : Interpreter}
    (hfs : ∀ (f : String) (d : Definition), fs[f]? ≠ some (.code d)) (depth : Nat) :
    FindsNames (callWithin fs depth) := by
  cases depth <;> exact findsNames_callWith _ hfs

end Eval

/-- Without definitions to call, a run from values for all known names misses only names that are
told to be read undefined, so none if there are none. -/
theorem missing_names_are_undefined_reads {fs : Interpreter}
    (hfs : ∀ (f : String) (d : Definition), fs[f]? ≠ some (.code d)) {vars : Names} {σ : Scope}
    (hσ : ∀ x ∈ vars, ∃ v, σ[x]? = some v) (functions : Names) (ss : List Statement) :
    (∀ stop, fs.run σ ss = .error stop → stop.fault.code = .unknownIdentifier →
      ∃ x ∈ (Dependencies.ofStatements vars functions ss).undefinedRead,
        stop.fault.reason = .unassigned x ∨ stop.fault.reason = .updatedUnassigned x) ∧
    ((Dependencies.ofStatements vars functions ss).undefinedRead = ∅ →
      ∀ stop, fs.run σ ss = .error stop → stop.fault.code ≠ .unknownIdentifier) := by
  have hmissing : FailsOnly _ (fs.run σ ss) :=
    Eval.missesOnly_statements (Eval.findsNames_callWithin hfs Eval.depthLimit) vars hσ
  refine ⟨hmissing, fun hempty stop hstop hcode => ?_⟩
  obtain ⟨x, hx, -⟩ := hmissing stop hstop hcode
  change x ∈ (Dependencies.ofStatements vars functions ss).undefinedRead at hx
  rw [hempty] at hx
  exact Std.ExtTreeSet.not_mem_empty hx

/-- The update of `total` comes before anything is assigned to it. -/
theorem missing_names_are_undefined_reads_update :
    let _ : Draws := .middle
    let ss : List Statement := [⟨"rate", .set, .unary .neg (.var "k" .zero) .zero⟩,
      ⟨"total", .update .add, .var "rate" .zero⟩]
    let σ : Scope := Table.ofList [("k", .number 1)]
    ∃ stop, Interpreter.builtin.run σ ss = .error stop ∧
      stop.fault.code = .unknownIdentifier ∧
      ∃ x ∈ (Dependencies.ofStatements (.ofList ["k"]) ∅ ss).undefinedRead,
        stop.fault.reason = .unassigned x ∨ stop.fault.reason = .updatedUnassigned x := by
  intro _ ss σ
  have hσ : ∀ x ∈ (.ofList ["k"] : Names), ∃ v, σ[x]? = some v := by
    intro x hx
    rw [mem_ofList_iff, List.mem_singleton] at hx
    subst hx
    exact ⟨.number 1, rfl⟩
  have hrun : ∃ stop, Interpreter.builtin.run σ ss = .error stop ∧
      stop.fault.code = .unknownIdentifier := by
    have hfails : ((Interpreter.builtin.run σ ss).mapError (·.fault.code)).map (fun _ => ()) =
        .error .unknownIdentifier := by
      decide +kernel
    cases hstop : Interpreter.builtin.run σ ss with
    | ok τ =>
      rw [hstop] at hfails
      cases hfails
    | error stop =>
      rw [hstop] at hfails
      exact ⟨stop, rfl, Except.error.inj hfails⟩
  obtain ⟨stop, hstop, hcode⟩ := hrun
  exact ⟨stop, hstop, hcode,
    (missing_names_are_undefined_reads Interpreter.builtin_ne_code hσ ∅ ss).1 stop hstop hcode⟩

end Formulae
