import Formulae.Eval.Text
import Formulae.Proofs.Eval.Places
import Formulae.Proofs.Symbolic.Meaning
import Formulae.Proofs.Symbolic.RoundTrip
import Formulae.Proofs.Syntax.Operands

namespace Formulae
open Eval Outcome Symbolic
set_option autoImplicit true

/-- An expression of variables, truth values, `not`, connectives and comparisons. -/
inductive Expr.Logical : Expr → Prop
  | bool : Logical (.bool b sp)
  | var : Logical (.var x sp)
  | not : Logical e → Logical (.unary .not e sp)
  | compare : Logical e → (∀ r ∈ rest, Logical r.2) → Logical (.compare e rest sp)
  | logical : (∀ e ∈ es, Logical e) → Logical (.logical op es sp)

/-- All variables of the expression have values that can be compared. -/
def Expr.Comparable (e : Expr) (σ : Scope) : Prop :=
  ∀ x ∈ e.identifiers, ∃ v, σ[x]? = some v ∧ v.toFloat.isNaN = false

variable {σ : Scope} {call : Caller}

theorem Expr.Comparable.operand (h : Comparable e σ) (he : e' ∈ e.operands) : Comparable e' σ :=
  fun x hx => h x (mem_identifiers.2 (.inr ⟨e', he, hx⟩))

/-- A chain of comparisons holds if each of them does. -/
theorem comparisons_eq_connect {rest : List (CmpOp × Expr)}
    (h : ∀ r ∈ rest, expr call σ r.2 = .ok (meaning σ r.2.symbolic)) (x : Symbolic) :
    comparisons call σ (meaning σ x).toFloat rest =
      .ok (.connect .and ((Expr.relations x rest).map (meaning σ))) := by
  induction rest generalizing x with
  | nil => rfl
  | cons r rest ih =>
    rw [List.forall_mem_cons] at h
    rw [comparisons, h.1, ok_bind, Expr.relations, List.map_cons, meaning_relate]
    cases r.1.holds (meaning σ x).toFloat (meaning σ r.2.symbolic).toFloat with
    | true =>
      rw [if_pos rfl, ih h.2]
      exact congrArg Except.ok (Value.connect_identity .and _).symm
    | false =>
      rw [if_neg Bool.false_ne_true, Value.connect_of_decides rfl]

/-- The symbolic form of an expression has the value of the expression. -/
theorem Expr.Logical.symbolic_spec {e : Expr} (h : e.Logical) (hσ : e.Comparable σ) :
    e.symbolic.Logical σ ∧ ∀ call, expr call σ e = .ok (meaning σ e.symbolic) := by
  induction h with
  | bool => exact ⟨.truth, fun call => rfl⟩
  | @var x sp =>
    obtain ⟨v, hv, hnumber⟩ := hσ x (mem_singleton_iff.2 rfl)
    refine ⟨.symbol hv hnumber, fun call => ?_⟩
    simp only [expr, hv, symbolic, meaning, Option.getD_some]
  | not _ ih =>
    obtain ⟨hlogical, hvalue⟩ := ih (hσ.operand List.mem_cons_self)
    refine ⟨hlogical.not, fun call => ?_⟩
    rw [expr, hvalue, ok_bind, symbolic, ofUnary, hlogical.meaning_not]
    rfl
  | @compare e rest sp _ _ ihe ihr =>
    obtain ⟨hlogical, hvalue⟩ := ihe (hσ.operand List.mem_cons_self)
    have hrest r (hr : r ∈ rest) :=
      ihr r hr (hσ.operand (List.mem_cons_of_mem _ (List.mem_map_of_mem hr)))
    have hrelations := forall_mem_relations (fun _ _ _ hx hy => hx.relate hy) hlogical
      fun r hr => (hrest r hr).1
    obtain ⟨hall, hmeaning⟩ := logic_spec hrelations .and
    refine ⟨hall, fun call => ?_⟩
    rw [expr, hvalue, ok_bind, symbolic, hmeaning]
    exact comparisons_eq_connect (fun r hr => (hrest r hr).2 call) _
  | @logical es op sp _ ih =>
    have hes e (he : e ∈ es) := ih e he (hσ.operand he)
    have hoperands : ∀ s ∈ es.map symbolic, s.Logical σ :=
      List.forall_mem_map.2 fun e he => (hes e he).1
    obtain ⟨hall, hmeaning⟩ := logic_spec hoperands op
    rw [symbolic, symbolicList_eq]
    refine ⟨hall, fun call => ?_⟩
    have hconnective : connective call σ op es =
        .ok (.connect op (es.map fun e => meaning σ e.symbolic)) := by
      rw [← connective_eq_connect fun e he => (hes e he).2 call, List.map_id']
    rw [expr, hconnective, hmeaning, List.map_map]
    rfl

namespace Symbolic

theorem size_le_of_mem {xs : List Symbolic} (h : x ∈ xs) : x.size ≤ sizeOfList xs := by
  induction xs with
  | nil => cases h
  | cons y xs ih =>
    rw [sizeOfList]
    rcases List.mem_cons.1 h with rfl | h
    · omega
    · exact Nat.le_trans (ih h) (Nat.le_add_left _ _)

theorem Logical.size_pos (h : Logical σ s) : 0 < s.size := by
  cases h <;> exact Nat.succ_pos _

theorem Logical.parts (h : Logical σ s) : ∀ p ∈ s.parts, Logical σ p ∧ p.size < s.size := by
  cases h with
  | truth => nofun
  | symbol => nofun
  | relation hx hy =>
    simp only [Symbolic.parts, List.forall_mem_cons, size]
    exact ⟨⟨hx, by omega⟩, ⟨hy, by omega⟩, by simp⟩
  | negation hx =>
    simp only [Symbolic.parts, List.forall_mem_singleton, size]
    exact ⟨hx, by omega⟩
  | logical _ hxs =>
    intro p hp
    exact ⟨hxs p hp, Nat.lt_succ_of_le (size_le_of_mem hp)⟩

theorem Logical.firmWithin (h : Logical σ s) (hsize : s.size ≤ depth) : FirmWithin depth s := by
  induction depth generalizing s with
  | zero => exact absurd h.size_pos (by omega)
  | succ depth ih =>
    refine ⟨by cases h <;> trivial, fun p hp => ?_⟩
    obtain ⟨hpart, hlt⟩ := h.parts p hp
    exact ih hpart (by omega)

/-- What the text is written for has the value of the tree. -/
theorem Logical.expr_sourceWithin (h : Logical σ s) (hsize : s.size ≤ depth) :
    expr call σ (sourceWithin depth s) = .ok (meaning σ s) := by
  induction depth generalizing s with
  | zero => exact absurd h.size_pos (by omega)
  | succ depth ih =>
    have hparts : ∀ p ∈ s.parts, expr call σ (sourceWithin depth p) = .ok (meaning σ p) := by
      intro p hp
      obtain ⟨hpart, hlt⟩ := h.parts p hp
      exact ih hpart (by omega)
    rw [sourceWithin]
    cases h with
    | truth => rfl
    | symbol hx hv => simp only [nodeSource, expr, hx, meaning, Option.getD_some]
    | @relation x y op =>
      simp only [Symbolic.parts, List.forall_mem_cons] at hparts
      rw [nodeSource, expr, hparts.1, ok_bind, comparisons, hparts.2.1, ok_bind, meaning]
      cases op.holds (meaning σ x).toFloat (meaning σ y).toFloat <;> rfl
    | negation =>
      simp only [Symbolic.parts, List.forall_mem_cons] at hparts
      rw [nodeSource, expr, hparts.1]
      rfl
    | logical =>
      rw [Symbolic.parts] at hparts
      rw [nodeSource, expr, connective_eq_connect hparts, meaning, meanings_eq_map]

theorem size_le_depthFor (n : Nat) : n ≤ depthFor n := by
  unfold depthFor
  nlinarith

end Symbolic

/-- An expression of truth values, comparisons, negations and connectives is simplified to a text
with the same value, be it a truth value or a number. -/
theorem simplified_logic_same_value (fs : Interpreter) (h : Expr.parse .equation code = .ok e)
    (hlogical : e.Logical) (hσ : e.Comparable σ) :
    ∃ s v, simplify code = .ok s ∧ fs.eval σ e = .ok v ∧ fs.evalText .equation σ s = .ok v := by
  obtain ⟨hs, hvalue⟩ := hlogical.symbolic_spec hσ
  have hdepth := size_le_depthFor e.symbolic.size
  have hread := (written_text (Expr.legible_of_parse h).formed (hs.firmWithin hdepth)).parse
  obtain ⟨e', he', htree⟩ := map_eq_ok.1 hread
  refine ⟨_, _, simplify_eq_ok h, hvalue _, ?_⟩
  have hsource : expr (callWithin fs depthLimit) σ e'.eraseSpans = .ok (meaning σ e.symbolic) := by
    rw [htree]
    exact hs.expr_sourceWithin hdepth
  have hplaced := reported_eraseSpans (unplaced_callWithin fs depthLimit) σ e'
  rw [hsource] at hplaced
  rw [Interpreter.evalText, he', ok_bind]
  exact reported_eq_ok.1 hplaced.symm

/-- The number `c` is what both connectives give, also once the negation and the constant are
gone. -/
theorem simplified_logic_same_value_number :
    let _ : Draws := .middle
    let e : Expr := .logical .and
      [.unary .not (.compare (.var "a" (.ofOffsets 5 6)) [(.lt, .var "b" (.ofOffsets 9 10))]
        (.ofOffsets 5 10)) (.ofOffsets 0 10),
        .logical .and [.bool true (.ofOffsets 17 21), .var "c" (.ofOffsets 26 27)]
          (.ofOffsets 17 27)]
      (.ofOffsets 0 27)
    let σ : Scope := Table.ofList [("a", .number 2), ("b", .bool true), ("c", .number 7)]
    Expr.parse .equation "not (a < b) and (True and c)" = .ok e ∧ e.Logical ∧ e.Comparable σ ∧
      simplify "not (a < b) and (True and c)" = .ok "a >= b and c" ∧
      ∃ s v, simplify "not (a < b) and (True and c)" = .ok s ∧
        Interpreter.builtin.eval σ e = .ok v ∧
        Interpreter.builtin.evalText .equation σ s = .ok v := by
  intro _ e σ
  have hparse : Expr.parse .equation "not (a < b) and (True and c)" = .ok e := by rfl
  have hlogical : e.Logical := by
    refine .logical (List.forall_mem_cons.2 ⟨?_, List.forall_mem_singleton.2 ?_⟩)
    · exact .not (.compare .var (List.forall_mem_singleton.2 .var))
    · exact .logical (List.forall_mem_cons.2 ⟨.bool, List.forall_mem_singleton.2 .var⟩)
  have hnames : e.identifiers.toList = ["a", "b", "c"] := by decide +kernel
  have hσ : e.Comparable σ := by
    intro x hx
    rw [← Std.ExtTreeSet.mem_toList, hnames] at hx
    simp only [List.mem_cons, List.not_mem_nil, or_false] at hx
    rcases hx with rfl | rfl | rfl
    · exact ⟨.number 2, rfl, by decide +kernel⟩
    · exact ⟨.bool true, rfl, by decide +kernel⟩
    · exact ⟨.number 7, rfl, by decide +kernel⟩
  have htext : simplify "not (a < b) and (True and c)" = .ok "a >= b and c" := by decide +kernel
  exact ⟨hparse, hlogical, hσ, htext,
    simplified_logic_same_value Interpreter.builtin hparse hlogical hσ⟩

end Formulae
