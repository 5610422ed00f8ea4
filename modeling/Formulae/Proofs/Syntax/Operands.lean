import Formulae.Proofs.Syntax.Names

namespace Formulae.Expr
set_option autoImplicit true

/-- The operands of a node from left to right. -/
def operands : Expr → List Expr
  | number _ _ _ | bool _ _ | var _ _ => []
  | call _ args _ => args
  | unary _ e _ => [e]
  | binary _ l r _ => [l, r]
  | compare e rest _ => e :: rest.map Prod.snd
  | logical _ es _ => es

/-- The node with other operands, of which there have to be as many. -/
def withOperands : Expr → List Expr → Expr
  | call f _ sp, args => call f args sp
  | unary op _ sp, [e] => unary op e sp
  | binary op _ _ sp, [l, r] => binary op l r sp
  | compare _ rest sp, e :: es => compare e ((rest.map Prod.fst).zip es) sp
  | logical op _ sp, es => logical op es sp
  | e, _ => e

/-- The variable that a leaf reads. -/
def ident? : Expr → Option String
  | var x _ => some x
  | _ => none

def callee? : Expr → Option String
  | call f _ _ => some f
  | _ => none

/-- A property holds of every expression if it passes from the operands of a node to the node. -/
@[elab_as_elim]
theorem inductOperands {motive : Expr → Prop}
    (node : ∀ e, (∀ e' ∈ e.operands, motive e') → motive e) (e : Expr) : motive e := by
  induction e using induct with
  | number s x sp => exact node _ (by simp [operands])
  | bool b sp => exact node _ (by simp [operands])
  | var x sp => exact node _ (by simp [operands])
  | call f args sp ih => exact node _ ih
  | unary op e sp ih => exact node _ (by simpa [operands] using ih)
  | binary op l r sp ihl ihr => exact node _ (by simpa [operands] using ⟨ihl, ihr⟩)
  | compare e rest sp ihe ihr =>
    apply node
    rw [operands, List.forall_mem_cons, List.forall_mem_map]
    exact ⟨ihe, ihr⟩
  | logical op es sp ih => exact node _ ih

theorem mem_identifiers {e : Expr} :
    x ∈ e.identifiers ↔ e.ident? = some x ∨ ∃ e' ∈ e.operands, x ∈ e'.identifiers := by
  cases e with
  | compare e rest sp =>
    rw [identifiers, mem_union_iff, mem_identifiersOfRest, operands, exists_mem_cons,
      exists_mem_map]
    simp [ident?]
  | _ => simp [identifiers, ident?, operands]

theorem mem_functions {e : Expr} :
    f ∈ e.functions ↔ e.callee? = some f ∨ ∃ e' ∈ e.operands, f ∈ e'.functions := by
  cases e with
  | compare e rest sp =>
    rw [functions, mem_union_iff, mem_functionsOfRest, operands, exists_mem_cons, exists_mem_map]
    simp [callee?]
  | _ => simp [functions, callee?, operands]

theorem mem_identifiers_or_mem_functions {e : Expr} : x ∈ e.identifiers ∨ x ∈ e.functions ↔
    (e.ident? = some x ∨ e.callee? = some x) ∨
      ∃ e' ∈ e.operands, x ∈ e'.identifiers ∨ x ∈ e'.functions := by
  rw [mem_identifiers, mem_functions, or_or_or_comm, ← exists_or]
  simp only [and_or_left]

/-- The variables that are read have one property, and the functions that are called another. -/
def Named (V F : String → Prop) (e : Expr) : Prop :=
  (∀ x ∈ e.identifiers, V x) ∧ ∀ f ∈ e.functions, F f

theorem named_iff {V F : String → Prop} {e : Expr} : e.Named V F ↔
    (∀ x, e.ident? = some x → V x) ∧ (∀ f, e.callee? = some f → F f) ∧
      ∀ e' ∈ e.operands, e'.Named V F := by
  constructor
  · rintro ⟨hV, hF⟩
    refine ⟨fun x hx => hV x (mem_identifiers.2 (.inl hx)),
      fun f hf => hF f (mem_functions.2 (.inl hf)), fun e' he => ⟨fun x hx => ?_, fun f hf => ?_⟩⟩
    · exact hV x (mem_identifiers.2 (.inr ⟨e', he, hx⟩))
    · exact hF f (mem_functions.2 (.inr ⟨e', he, hf⟩))
  · rintro ⟨hident, hcallee, hoperands⟩
    refine ⟨fun x hx => ?_, fun f hf => ?_⟩
    · rcases mem_identifiers.1 hx with hx | ⟨e', he, hx⟩
      · exact hident x hx
      · exact (hoperands e' he).1 x hx
    · rcases mem_functions.1 hf with hf | ⟨e', he, hf⟩
      · exact hcallee f hf
      · exact (hoperands e' he).2 f hf

section Named

variable {V F : String → Prop}

theorem named_number : (number s x sp).Named V F := by
  simp [Named, identifiers, functions]

theorem named_bool : (bool b sp).Named V F := by
  simp [Named, identifiers, functions]

theorem named_var_iff : (var x sp).Named V F ↔ V x := by
  simp [Named, identifiers, functions]

theorem named_call_iff : (call f args sp).Named V F ↔ F f ∧ ∀ e ∈ args, e.Named V F := by
  rw [named_iff]
  simp [ident?, callee?, operands]

theorem named_unary_iff : (unary op e sp).Named V F ↔ e.Named V F := by
  rw [named_iff]
  simp [ident?, callee?, operands]

theorem named_binary_iff : (binary op l r sp).Named V F ↔ l.Named V F ∧ r.Named V F := by
  rw [named_iff]
  simp [ident?, callee?, operands]

theorem named_compare_iff :
    (compare e rest sp).Named V F ↔ e.Named V F ∧ ∀ x ∈ rest, x.2.Named V F := by
  rw [named_iff, operands, List.forall_mem_cons, List.forall_mem_map]
  simp [ident?, callee?]

theorem named_logical_iff : (logical op es sp).Named V F ↔ ∀ e ∈ es, e.Named V F := by
  rw [named_iff]
  simp [ident?, callee?, operands]

end Named

theorem operands_eraseSpans (e : Expr) : e.eraseSpans.operands = e.operands.map eraseSpans := by
  cases e <;> simp [eraseSpans, operands]

@[simp] theorem ident?_eraseSpans (e : Expr) : e.eraseSpans.ident? = e.ident? := by
  cases e <;> rfl

@[simp] theorem callee?_eraseSpans (e : Expr) : e.eraseSpans.callee? = e.callee? := by
  cases e <;> rfl

/-- Where an expression was written does not matter for the names in it. -/
theorem named_eraseSpans {e : Expr} :
    x ∈ e.eraseSpans.identifiers ∨ x ∈ e.eraseSpans.functions ↔
      x ∈ e.identifiers ∨ x ∈ e.functions := by
  induction e using inductOperands with
  | node e ih =>
    rw [mem_identifiers_or_mem_functions, mem_identifiers_or_mem_functions (e := e),
      ident?_eraseSpans, callee?_eraseSpans, operands_eraseSpans, exists_mem_map]
    exact or_congr_right (exists_congr fun e' => and_congr_right (ih e'))

theorem Named.of_eraseSpans {V F : String → Prop} {e : Expr} (h : e.eraseSpans.Named V F) :
    e.Named V F := by
  induction e using inductOperands with
  | node e ih =>
    rw [named_iff, ident?_eraseSpans, callee?_eraseSpans, operands_eraseSpans,
      List.forall_mem_map] at h
    exact named_iff.2 ⟨h.1, h.2.1, fun e' he => ih e' he (h.2.2 e' he)⟩

theorem operands_withOperands {e : Expr} (h : es.length = e.operands.length) :
    (e.withOperands es).operands = es := by
  cases e with
  | number => exact (List.length_eq_zero_iff.1 h).symm
  | bool => exact (List.length_eq_zero_iff.1 h).symm
  | var => exact (List.length_eq_zero_iff.1 h).symm
  | call => rfl
  | unary =>
    obtain ⟨e, rfl⟩ := List.length_eq_one_iff.1 h
    rfl
  | binary =>
    match es, h with
    | [l, r], _ => rfl
  | compare first rest sp =>
    cases es with
    | nil => cases h
    | cons e es =>
      have hlen : es.length ≤ (rest.map Prod.fst).length := by simpa [operands] using Nat.le_of_eq h
      simp only [withOperands, operands, List.map_snd_zip hlen]
  | logical => rfl

theorem ident?_withOperands (e : Expr) (es : List Expr) :
    (e.withOperands es).ident? = e.ident? := by
  unfold withOperands
  split <;> rfl

theorem callee?_withOperands (e : Expr) (es : List Expr) :
    (e.withOperands es).callee? = e.callee? := by
  unfold withOperands
  split <;> rfl

@[simp] theorem renameList_eq (names : Table String) (es : List Expr) :
    renameList names es = es.map (rename names) := by
  induction es with
  | nil => rfl
  | cons e es ih => simp only [renameList, ih, List.map_cons]

@[simp] theorem renameRest_eq (names : Table String) (rest : List (CmpOp × Expr)) :
    renameRest names rest = rest.map fun x => (x.1, x.2.rename names) := by
  induction rest with
  | nil => rfl
  | cons x rest ih => simp only [renameRest, ih, List.map_cons]

theorem rename_eq_withOperands {e : Expr} (h : e.ident? = none) (names : Table String) :
    e.rename names = e.withOperands (e.operands.map (rename names)) := by
  cases e with
  | var => cases h
  | compare e rest sp =>
    simp only [rename, operands, withOperands, List.map_cons, renameRest_eq, List.map_map]
    rw [List.zip_map']
    rfl
  | _ => simp [rename, operands, withOperands]

theorem mem_identifiers_rename {names : Table String} {e : Expr} :
    x ∈ (e.rename names).identifiers ↔ ∃ y ∈ e.identifiers, names.getD y y = x := by
  induction e using inductOperands with
  | node e ih =>
    cases hvar : e.ident? with
    | some y =>
      cases e <;> cases hvar
      simp [rename, identifiers]
    | none =>
      rw [rename_eq_withOperands hvar, mem_identifiers, ident?_withOperands, hvar,
        operands_withOperands (List.length_map _), exists_mem_map, or_iff_right (by simp)]
      constructor
      · rintro ⟨e', he', hx⟩
        obtain ⟨y, hy, hname⟩ := (ih e' he').1 hx
        exact ⟨y, mem_identifiers.2 (.inr ⟨e', he', hy⟩), hname⟩
      · rintro ⟨y, hy, hname⟩
        rw [mem_identifiers, hvar, or_iff_right (by simp)] at hy
        obtain ⟨e', he', hy⟩ := hy
        exact ⟨e', he', (ih e' he').2 ⟨y, hy, hname⟩⟩

theorem withOperands_operands (e : Expr) : e.withOperands e.operands = e := by
  cases e with
  | compare e rest sp =>
    rw [operands, withOperands, List.zip_map']
    simp
  | _ => rfl

theorem rename_empty (e : Expr) : e.rename ∅ = e := by
  induction e using inductOperands with
  | node e ih =>
    cases hvar : e.ident? with
    | some y =>
      cases e <;> cases hvar
      simp [rename]
    | none =>
      rw [rename_eq_withOperands hvar, List.map_congr_left ih, List.map_id', withOperands_operands]

end Formulae.Expr
