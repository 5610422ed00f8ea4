import Formulae.Eval.Interpreter
import Formulae.Proofs.Outcome

namespace Formulae
open Outcome
set_option autoImplicit true

namespace Value

def isBool : Value → Bool
  | bool _ => true
  | number _ => false

/-- The first value that decides a connective, or else the last one. -/
def connect (op : BoolOp) : List Value → Value
  | [] => .bool op.identity
  | [v] => v
  | v :: vs => if v.decides op then v else connect op vs

@[simp] theorem decides_bool (op : BoolOp) (b : Bool) :
    (bool b).decides op = (b != op.identity) := rfl

theorem connect_cons (h : vs ≠ []) :
    connect op (v :: vs) = if v.decides op then v else connect op vs := by
  cases vs with
  | nil => exact absurd rfl h
  | cons w vs => rfl

/-- A value that decides hides all others behind it. -/
theorem connect_of_decides (h : v.decides op = true) : connect op (v :: vs) = v := by
  cases vs with
  | nil => rfl
  | cons w vs => rw [connect_cons (List.cons_ne_nil w vs), if_pos h]

/-- The truth value that never decides may be left out. -/
theorem connect_identity (op : BoolOp) (vs : List Value) :
    connect op (.bool op.identity :: vs) = connect op vs := by
  cases vs with
  | nil => rfl
  | cons w vs =>
    rw [connect_cons (List.cons_ne_nil w vs), decides_bool, bne_self_eq_false,
      if_neg Bool.false_ne_true]

theorem connect_mem (h : vs ≠ []) : connect op vs ∈ vs := by
  induction vs with
  | nil => exact absurd rfl h
  | cons v vs ih =>
    cases vs with
    | nil => exact List.mem_singleton_self v
    | cons w vs =>
      rw [connect_cons (List.cons_ne_nil w vs)]
      split
      · exact List.mem_cons_self
      · exact List.mem_cons_of_mem _ (ih (List.cons_ne_nil w vs))

/-- Operands that may stand for others, also behind further ones. -/
structure Exchangeable (op : BoolOp) (vs ws : List Value) : Prop where
  nil_iff : vs = [] ↔ ws = []
  connect_eq : connect op vs = connect op ws

theorem Exchangeable.refl (op : BoolOp) (vs : List Value) : Exchangeable op vs vs := ⟨.rfl, rfl⟩

theorem Exchangeable.trans (h : Exchangeable op us vs) (h' : Exchangeable op vs ws) :
    Exchangeable op us ws :=
  ⟨h.nil_iff.trans h'.nil_iff, h.connect_eq.trans h'.connect_eq⟩

theorem Exchangeable.cons (h : Exchangeable op vs ws) (v : Value) :
    Exchangeable op (v :: vs) (v :: ws) := by
  refine ⟨by simp, ?_⟩
  by_cases hvs : vs = []
  · rw [hvs, h.nil_iff.1 hvs]
  · rw [connect_cons hvs, connect_cons (mt h.nil_iff.2 hvs), h.connect_eq]

theorem Exchangeable.append (h : Exchangeable op vs ws) (us : List Value) :
    Exchangeable op (us ++ vs) (us ++ ws) := by
  induction us with
  | nil => exact h
  | cons u us ih => exact ih.cons u

/-- An operand that is itself the value of the connective may be replaced by its operands. -/
theorem exchangeable_flatten (hvs : vs ≠ []) (ws : List Value) :
    Exchangeable op (vs ++ ws) (connect op vs :: ws) := by
  induction vs with
  | nil => exact absurd rfl hvs
  | cons v vs ih =>
    cases vs with
    | nil => exact .refl op _
    | cons w vs =>
      refine ⟨by simp, ?_⟩
      rw [connect_cons (List.cons_ne_nil w vs), List.cons_append]
      split
      · next hv => rw [connect_of_decides hv, connect_of_decides hv]
      · next hv =>
        rw [← (ih (List.cons_ne_nil w vs)).connect_eq]
        exact (connect_cons (by simp)).trans (if_neg hv)

/-- Of truth values only matters whether one of them decides. -/
theorem connect_bools (h : ∀ v ∈ vs, v.isBool = true) :
    connect op vs = .bool (vs.any (decides op) != op.identity) := by
  induction vs with
  | nil => cases op <;> rfl
  | cons v vs ih =>
    rw [List.forall_mem_cons] at h
    obtain ⟨b, rfl⟩ : ∃ b, v = .bool b := by
      cases v with
      | bool b => exact ⟨b, rfl⟩
      | number x => cases h.1
    rw [List.any_cons]
    cases hv : (bool b).decides op with
    | true =>
      rw [connect_of_decides hv, Bool.true_or]
      rw [decides_bool] at hv
      cases b <;> cases op <;> first | rfl | cases hv
    | false =>
      obtain rfl : b = op.identity := by simpa using hv
      rw [connect_identity, Bool.false_or, ih h.2]

end Value

namespace Eval

theorem connective_cons (h : es ≠ []) : connective call σ op (e :: es) =
    expr call σ e >>= fun v =>
      if v.decides op then .ok v else connective call σ op es := by
  obtain ⟨e', es, rfl⟩ := List.exists_cons_of_ne_nil h
  rfl

/-- A connective whose operands all have values has the value that they decide. -/
theorem connective_eq_connect {tree : α → Expr} {value : α → Value} {xs : List α}
    (h : ∀ x ∈ xs, expr call σ (tree x) = .ok (value x)) :
    connective call σ op (xs.map tree) = .ok (.connect op (xs.map value)) := by
  induction xs with
  | nil => rfl
  | cons x xs ih =>
    rw [List.forall_mem_cons] at h
    rw [List.map_cons, List.map_cons]
    by_cases hxs : xs = []
    · rw [hxs]
      exact h.1
    · rw [connective_cons (mt List.map_eq_nil_iff.1 hxs), h.1, ok_bind, ih h.2,
        Value.connect_cons (mt List.map_eq_nil_iff.1 hxs)]
      split <;> rfl

end Eval

end Formulae
