import Formulae.Proofs.Grammar.Legible
import Formulae.Proofs.Symbolic.Operands

namespace Formulae
set_option autoImplicit true

namespace Symbolic

/-- The names of symbols have one property and those of functions another, and neither sums nor
connectives are empty. -/
inductive Formed (V F : String → Prop) : Symbolic → Prop
  | number : Formed V F (number x)
  | truth : Formed V F (truth b)
  | symbol : V x → Formed V F (symbol x)
  | sum : xs ≠ [] → (∀ x ∈ xs, Formed V F x) → Formed V F (sum xs)
  | product : (∀ x ∈ xs, Formed V F x) → Formed V F (product xs)
  | power : Formed V F b → Formed V F e → Formed V F (power b e)
  | remainder : Formed V F x → Formed V F y → Formed V F (remainder x y)
  | call : F f → (∀ x ∈ xs, Formed V F x) → Formed V F (call f xs)
  | relation : Formed V F x → Formed V F y → Formed V F (relation op x y)
  | negation : Formed V F x → Formed V F (negation x)
  | logical : 2 ≤ xs.length → (∀ x ∈ xs, Formed V F x) → Formed V F (logical op xs)

namespace Formed

variable {V F : String → Prop}

theorem hereditary : Hereditary (Formed V F) where
  number := .number
  sum hne := by
    refine ⟨fun h => ?_, .sum hne⟩
    cases h with
    | sum _ h => exact h
  product := by
    refine ⟨fun h => ?_, .product⟩
    cases h with
    | product h => exact h
  power := by
    refine ⟨fun h => ?_, fun h => .power h.1 h.2⟩
    cases h with
    | power hb he => exact ⟨hb, he⟩

theorem mod (hx : Formed V F x) (hy : Formed V F y) : Formed V F (mod x y) := by
  unfold Symbolic.mod
  split
  · dsimp only
    split
    · exact .number
    · exact .remainder hx hy
  · exact .remainder hx hy

theorem apply (hf : F f) (hxs : ∀ x ∈ xs, Formed V F x) : Formed V F (apply f xs) := by
  unfold Symbolic.apply
  split
  · exact hereditary.pow (hxs _ (by simp)) .number
  · exact .call hf hxs

theorem relate (hx : Formed V F x) (hy : Formed V F y) : Formed V F (relate op x y) := by
  unfold Symbolic.relate
  split
  · exact .truth
  · exact .relation hx hy

theorem not (hx : Formed V F x) : Formed V F (not x) := by
  unfold Symbolic.not
  split
  · exact .truth
  · cases hx with
    | relation hx hy => exact .relation hx hy
  · split
    · cases hx with
      | negation hx => exact hx
    · exact .negation hx
  · exact .negation hx

end Formed

/-- What holds of the operands of a connective holds of them once they are flattened. -/
theorem forall_mem_flatten {Q : Symbolic → Prop} {xs : List Symbolic}
    (hQ : ∀ ys, Q (logical op ys) → ∀ y ∈ ys, Q y) (hxs : ∀ x ∈ xs, Q x) :
    ∀ x ∈ flatten op xs, Q x := by
  fun_induction flatten op xs with
  | case1 => exact hxs
  | case2 ys xs ih =>
    rw [List.forall_mem_cons] at hxs
    exact List.forall_mem_append.2 ⟨hQ ys hxs.1, ih hxs.2⟩
  | case3 op' ys xs _ ih =>
    rw [List.forall_mem_cons] at hxs
    exact List.forall_mem_cons.2 ⟨hxs.1, ih hxs.2⟩
  | case4 x xs _ ih =>
    rw [List.forall_mem_cons] at hxs
    exact List.forall_mem_cons.2 ⟨hxs.1, ih hxs.2⟩

theorem mem_of_mem_distinct {xs : List Symbolic} (h : x ∈ distinct xs) : x ∈ xs := by
  have hall := List.foldlRecOn xs (fun kept x => if kept.any (· == x) then kept else kept ++ [x])
    (motive := fun kept => ∀ y ∈ kept, y ∈ xs) (b := []) (fun y hy => absurd hy List.not_mem_nil)
    (fun kept hkept x hx => by
      split
      · exact hkept
      · exact List.forall_mem_append.2 ⟨hkept, by simpa using hx⟩)
  exact hall x h

theorem distinct_append (xs : List Symbolic) (x : Symbolic) : distinct (xs ++ [x]) =
    if (distinct xs).any (· == x) then distinct xs else distinct xs ++ [x] := by
  rw [distinct, List.foldl_append]
  rfl

theorem mem_of_undecided {xs : List Symbolic} (h : undecided op xs = some ys) (hx : x ∈ ys) :
    x ∈ xs := by
  fun_induction Symbolic.undecided op xs with
  | case1 xs ih => exact List.mem_cons_of_mem _ (ih h)
  | case2 => cases h
  | case3 =>
    cases h
    exact hx

theorem mem_of_remaining {xs : List Symbolic} (h : remaining op xs = some ys) (hx : x ∈ ys) :
    x ∈ xs := by
  unfold remaining at h
  split at h
  · split at h
    · cases h
    · cases h
      exact (List.mem_filter.1 (mem_of_mem_distinct hx)).1
  · exact mem_of_undecided h hx

namespace Formed

variable {V F : String → Prop}

theorem flatten (hxs : ∀ x ∈ xs, Formed V F x) : ∀ x ∈ flatten op xs, Formed V F x := by
  apply forall_mem_flatten _ hxs
  intro ys hys
  cases hys with
  | logical _ hys => exact hys

theorem logic (hxs : ∀ x ∈ xs, Formed V F x) : Formed V F (logic op xs) := by
  unfold Symbolic.logic
  split
  · exact .truth
  · exact .truth
  · next x h => exact flatten hxs x (mem_of_remaining h (by simp))
  · next ys hne hone h =>
    refine .logical ?_ fun x hx => flatten hxs x (mem_of_remaining h hx)
    match ys with
    | [] => exact absurd rfl hne
    | [y] => exact absurd rfl (hone y)
    | _ :: _ :: _ => simp

theorem ofUnary (hx : Formed V F x) : Formed V F (ofUnary op x) := by
  cases op with
  | pos => exact hx
  | neg => exact hereditary.neg hx
  | not => exact hx.not

theorem ofBinary (hx : Formed V F x) (hy : Formed V F y) : Formed V F (ofBinary op x y) := by
  cases op with
  | add => exact hereditary.add (by simpa using ⟨hx, hy⟩)
  | sub => exact hereditary.sub hx hy
  | mul => exact hereditary.mul (by simpa using ⟨hx, hy⟩)
  | div => exact hereditary.div hx hy
  | mod => exact hx.mod hy
  | pow => exact hereditary.pow hx hy

theorem signless (hx : Formed V F x) : Formed V F x.signless := by
  unfold Symbolic.signless
  split
  · exact hereditary.neg hx
  · exact hx

theorem inOrder {xs : List Symbolic} (hxs : ∀ x ∈ xs, Formed V F x) :
    ∀ x ∈ inOrder xs, Formed V F x :=
  List.forall_mem_append.2 ⟨fun x hx => hxs x (mem_of_mem_others hx),
    fun x hx => hxs x (List.mem_filter.1 hx).1⟩

theorem divisor? (hx : Formed V F x) (hy : x.divisor? = some y) : Formed V F y := by
  unfold Symbolic.divisor? at hy
  split at hy
  · split at hy
    · cases hy
      cases hx with
      | power hb _ => exact hereditary.pow hb .number
    · cases hy
  · cases hy

theorem sumParts {xs : List Symbolic} (hxs : ∀ x ∈ xs, Formed V F x) :
    ∀ x ∈ sumParts (Symbolic.inOrder xs), Formed V F x := by
  have hall := inOrder hxs
  cases hterms : Symbolic.inOrder xs with
  | nil => simp [Symbolic.sumParts]
  | cons x ys =>
    rw [hterms, List.forall_mem_cons] at hall
    exact List.forall_mem_cons.2 ⟨hall.1, List.forall_mem_map.2 fun y hy => (hall.2 y hy).signless⟩

theorem quotientParts {xs : List Symbolic} (hxs : ∀ x ∈ xs, Formed V F x) :
    ∀ x ∈ quotientParts xs, Formed V F x := by
  have hfactors : ∀ x ∈ (coefficientOf xs).2, Formed V F x := by
    unfold coefficientOf
    split
    · exact (List.forall_mem_cons.1 hxs).2
    · exact hxs
  unfold Symbolic.quotientParts
  rw [List.forall_mem_append]
  constructor
  · exact fun x hx => hfactors x (List.mem_filter.1 hx).1
  · intro y hy
    obtain ⟨x, hx, hy⟩ := List.mem_filterMap.1 hy
    exact (hfactors x hx).divisor? hy

theorem parts (h : Formed V F s) : ∀ p ∈ s.parts, Formed V F p := by
  cases h with
  | number | truth | symbol => simp [Symbolic.parts]
  | sum _ hxs => exact sumParts hxs
  | product hxs => exact quotientParts hxs
  | power hb he =>
    rw [Symbolic.parts]
    split
    · simpa using hb
    split
    · exact quotientParts (by simpa using Formed.power hb he)
    · simpa using ⟨hb, he⟩
  | remainder hx hy => simpa [Symbolic.parts] using ⟨hx, hy⟩
  | call _ hxs => exact hxs
  | relation hx hy => simpa [Symbolic.parts] using ⟨hx, hy⟩
  | negation hx => simpa [Symbolic.parts] using hx
  | logical _ hxs => exact hxs

end Formed

end Symbolic

theorem Expr.symbolicList_eq (es : List Expr) : symbolicList es = es.map symbolic := by
  induction es with
  | nil => rfl
  | cons e es ih => simp only [symbolicList, ih, List.map_cons]

theorem Expr.forall_mem_relations {Q : Symbolic → Prop} {rest : List (CmpOp × Expr)}
    (hQ : ∀ op x y, Q x → Q y → Q (.relate op x y)) (hx : Q x)
    (h : ∀ r ∈ rest, Q r.2.symbolic) : ∀ s ∈ relations x rest, Q s := by
  induction rest generalizing x with
  | nil => simp [relations]
  | cons r rest ih =>
    rw [List.forall_mem_cons] at h
    rw [relations]
    exact List.forall_mem_cons.2 ⟨hQ _ _ _ hx h.1, ih h.1 h.2⟩

/-- The names in the tree are names in the expression. -/
theorem Expr.Named.formed {V F : String → Prop} {e : Expr} (h : e.Named V F) :
    e.symbolic.Formed V F := by
  induction e using induct with
  | number => exact .number
  | bool => exact .truth
  | var x sp => exact .symbol (named_var_iff.1 h)
  | call f args sp ih =>
    obtain ⟨hf, hargs⟩ := named_call_iff.1 h
    rw [symbolic, symbolicList_eq]
    exact .apply hf (List.forall_mem_map.2 fun e he => ih e he (hargs e he))
  | unary op e sp ih => exact (ih (named_unary_iff.1 h)).ofUnary
  | binary op l r sp ihl ihr =>
    obtain ⟨hl, hr⟩ := named_binary_iff.1 h
    exact (ihl hl).ofBinary (ihr hr)
  | compare e rest sp ihe ihr =>
    obtain ⟨he, hrest⟩ := named_compare_iff.1 h
    exact .logic (forall_mem_relations (fun _ _ _ hx hy => hx.relate hy) (ihe he)
      fun x hx => ihr x hx (hrest x hx))
  | logical op es sp ih =>
    rw [symbolic, symbolicList_eq]
    exact .logic (List.forall_mem_map.2 fun e he => ih e he (named_logical_iff.1 h e he))

theorem Legible.formed (h : Legible P e) : e.symbolic.Formed P P :=
  Expr.Named.formed ⟨fun _ hx => h.named (.inl hx), fun _ hf => h.named (.inr hf)⟩

end Formulae
