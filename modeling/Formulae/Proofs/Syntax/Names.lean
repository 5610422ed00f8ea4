import Formulae.Syntax.Expr
import Formulae.Names
import Mathlib.Logic.Basic

namespace Formulae.Expr
set_option autoImplicit true

/-- A property holds of every expression if it passes from the operands of a node to the node. -/
@[elab_as_elim]
theorem induct {motive : Expr → Prop} (number : ∀ s x sp, motive (.number s x sp))
    (bool : ∀ b sp, motive (.bool b sp)) (var : ∀ x sp, motive (.var x sp))
    (call : ∀ f args sp, (∀ e ∈ args, motive e) → motive (.call f args sp))
    (unary : ∀ op e sp, motive e → motive (.unary op e sp))
    (binary : ∀ op l r sp, motive l → motive r → motive (.binary op l r sp))
    (compare : ∀ e rest sp, motive e → (∀ x ∈ rest, motive x.2) → motive (.compare e rest sp))
    (logical : ∀ op es sp, (∀ e ∈ es, motive e) → motive (.logical op es sp)) (e : Expr) :
    motive e := by
  refine @Expr.rec motive (fun es => ∀ e ∈ es, motive e) (fun rest => ∀ x ∈ rest, motive x.2)
    (fun x => motive x.2) number bool var call unary binary compare logical ?_ ?_ ?_ ?_ ?_ e
  · exact fun e he => absurd he List.not_mem_nil
  · exact fun e es ihe ihes => List.forall_mem_cons.2 ⟨ihe, ihes⟩
  · exact fun x hx => absurd hx List.not_mem_nil
  · exact fun x rest ihx ihr => List.forall_mem_cons.2 ⟨ihx, ihr⟩
  · exact fun op e ih => ih

@[simp] theorem eraseSpansOfList_eq (es : List Expr) :
    eraseSpansOfList es = es.map eraseSpans := by
  induction es with
  | nil => rfl
  | cons e es ih => simp only [eraseSpansOfList, ih, List.map_cons]

@[simp] theorem eraseSpansOfRest_eq (rest : List (CmpOp × Expr)) :
    eraseSpansOfRest rest = rest.map fun x => (x.1, x.2.eraseSpans) := by
  induction rest with
  | nil => rfl
  | cons x rest ih => simp only [eraseSpansOfRest, ih, List.map_cons]

end Formulae.Expr

namespace Formulae
set_option autoImplicit true

theorem exists_mem_cons {p : α → Prop} {as : List α} :
    (∃ b ∈ a :: as, p b) ↔ p a ∨ ∃ b ∈ as, p b := by
  simp only [List.mem_cons, exists_eq_or_imp]

theorem exists_mem_append {p : α → Prop} {as bs : List α} :
    (∃ c ∈ as ++ bs, p c) ↔ (∃ a ∈ as, p a) ∨ ∃ b ∈ bs, p b := by
  simp only [List.mem_append, or_and_right, exists_or]

theorem exists_mem_map {p : β → Prop} {f : α → β} {as : List α} :
    (∃ b ∈ as.map f, p b) ↔ ∃ a ∈ as, p (f a) := by
  simp only [List.mem_map, exists_exists_and_eq_and]

namespace Expr

@[simp] theorem mem_identifiersOfList :
    x ∈ identifiersOfList es ↔ ∃ e ∈ es, x ∈ e.identifiers := by
  induction es with
  | nil => simp [identifiersOfList]
  | cons e es ih => simp [identifiersOfList, ih]

@[simp] theorem mem_identifiersOfRest :
    x ∈ identifiersOfRest rest ↔ ∃ y ∈ rest, x ∈ y.2.identifiers := by
  induction rest with
  | nil => simp [identifiersOfRest]
  | cons y rest ih => simp [identifiersOfRest, ih]

@[simp] theorem mem_functionsOfList :
    f ∈ functionsOfList es ↔ ∃ e ∈ es, f ∈ e.functions := by
  induction es with
  | nil => simp [functionsOfList]
  | cons e es ih => simp [functionsOfList, ih]

@[simp] theorem mem_functionsOfRest :
    f ∈ functionsOfRest rest ↔ ∃ y ∈ rest, f ∈ y.2.functions := by
  induction rest with
  | nil => simp [functionsOfRest]
  | cons y rest ih => simp [functionsOfRest, ih]

end Expr

end Formulae
