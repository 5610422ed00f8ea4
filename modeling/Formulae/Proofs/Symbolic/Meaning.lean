import Formulae.Proofs.Eval.Connective
import Formulae.Proofs.Number.Order
import Formulae.Proofs.Symbolic.Formed

namespace Formulae.Symbolic
set_option autoImplicit true

mutual

/-- The value of a tree without arithmetic and calls. -/
def meaning (σ : Scope) : Symbolic → Value
  | number x => .number x
  | truth b => .bool b
  | symbol x => (σ[x]?).getD (.bool false)
  | relation op x y => .bool (op.holds (meaning σ x).toFloat (meaning σ y).toFloat)
  | negation x => .bool (!(meaning σ x).isTrue)
  | logical op xs => .connect op (meanings σ xs)
  | sum _ | product _ | power _ _ | remainder _ _ | call _ _ => .bool false

def meanings (σ : Scope) : List Symbolic → List Value
  | [] => []
  | x :: xs => meaning σ x :: meanings σ xs

end

@[simp] theorem meanings_eq_map (σ : Scope) (xs : List Symbolic) :
    meanings σ xs = xs.map (meaning σ) := by
  induction xs with
  | nil => rfl
  | cons x xs ih => rw [meanings, ih, List.map_cons]

/-- A tree without arithmetic and calls, whose symbols have values that can be compared. -/
inductive Logical (σ : Scope) : Symbolic → Prop
  | truth : Logical σ (truth b)
  | symbol {v : Value} : σ[x]? = some v → v.toFloat.isNaN = false → Logical σ (symbol x)
  | relation : Logical σ x → Logical σ y → Logical σ (relation op x y)
  | negation : Logical σ x → Logical σ (negation x)
  | logical : xs ≠ [] → (∀ x ∈ xs, Logical σ x) → Logical σ (logical op xs)

variable {σ : Scope}

theorem isNaN_toFloat_bool (b : Bool) : (Value.bool b).toFloat.isNaN = false := by
  cases b <;> decide +kernel

theorem Logical.isNaN_meaning (h : Logical σ s) : (meaning σ s).toFloat.isNaN = false := by
  induction h with
  | truth => exact isNaN_toFloat_bool _
  | symbol hx hv => simpa only [meaning, hx, Option.getD_some] using hv
  | relation => exact isNaN_toFloat_bool _
  | negation => exact isNaN_toFloat_bool _
  | logical hne _ ih =>
    rw [meaning, meanings_eq_map]
    obtain ⟨x, hx, hvalue⟩ := List.mem_map.1 (Value.connect_mem (mt List.map_eq_nil_iff.1 hne))
    rw [← hvalue]
    exact ih x hx

theorem areBoolean_eq_all (xs : List Symbolic) : areBoolean xs = xs.all isBoolean := by
  induction xs with
  | nil => rfl
  | cons x xs ih => rw [areBoolean, ih, List.all_cons]

/-- What is told to be True or False is. -/
theorem Logical.isBool_meaning (h : Logical σ s) (hs : s.isBoolean = true) :
    (meaning σ s).isBool = true := by
  induction h with
  | truth => rfl
  | symbol => cases hs
  | relation => rfl
  | negation => rfl
  | logical _ _ ih =>
    rw [isBoolean, areBoolean_eq_all, List.all_eq_true] at hs
    rw [meaning, meanings_eq_map, Value.connect_bools]
    · rfl
    · exact List.forall_mem_map.2 fun x hx => ih x hx (hs x hx)

theorem eq_of_beqList {xs ys : List Symbolic} (hxs : ∀ x ∈ xs, ∀ y, beq x y = true → x = y)
    (h : beqList xs ys = true) : xs = ys := by
  induction xs generalizing ys with
  | nil =>
    cases ys with
    | nil => rfl
    | cons => cases h
  | cons x xs ih =>
    cases ys with
    | nil => cases h
    | cons y ys =>
      rw [List.forall_mem_cons] at hxs
      rw [beqList, Bool.and_eq_true] at h
      rw [hxs.1 y h.1, ih hxs.2 h.2]

/-- Without numbers, trees are equal if they are found to be. -/
theorem Logical.eq_of_beq (h : Logical σ s) (heq : beq s t = true) : s = t := by
  induction h generalizing t with
  | truth =>
    cases t with
    | truth => exact congrArg Symbolic.truth (LawfulBEq.eq_of_beq heq)
    | _ => cases heq
  | symbol =>
    cases t with
    | symbol => exact congrArg Symbolic.symbol (LawfulBEq.eq_of_beq heq)
    | _ => cases heq
  | relation _ _ ihx ihy =>
    cases t with
    | relation =>
      simp only [beq, Bool.and_eq_true, beq_iff_eq] at heq
      rw [heq.1.1, ihx heq.1.2, ihy heq.2]
    | _ => cases heq
  | negation _ ih =>
    cases t with
    | negation => exact congrArg Symbolic.negation (ih heq)
    | _ => cases heq
  | logical _ _ ih =>
    cases t with
    | logical =>
      simp only [beq, Bool.and_eq_true, beq_iff_eq] at heq
      rw [heq.1, eq_of_beqList (fun x hx y hxy => ih x hx hxy) heq.2]
    | _ => cases heq

theorem Logical.relate (hx : Logical σ x) (hy : Logical σ y) : Logical σ (relate op x y) := by
  unfold Symbolic.relate
  split
  · exact .truth
  · exact .relation hx hy

theorem meaning_relate (op : CmpOp) (x y : Symbolic) : meaning σ (relate op x y) =
    .bool (op.holds (meaning σ x).toFloat (meaning σ y).toFloat) := by
  unfold relate
  split <;> rfl

theorem Logical.not (h : Logical σ s) : Logical σ (not s) := by
  cases h with
  | truth => exact .truth
  | symbol hx hv => exact .negation (.symbol hx hv)
  | relation hx hy => exact .relation hx hy
  | negation hx =>
    rw [Symbolic.not]
    split
    · exact hx
    · exact .negation (.negation hx)
  | logical hne hxs => exact .negation (.logical hne hxs)

/-- A comparison is negated by the opposite one, and a truth value is the negation of its own. -/
theorem Logical.meaning_not (h : Logical σ s) :
    meaning σ (Symbolic.not s) = .bool (!(meaning σ s).isTrue) := by
  cases h with
  | truth => rfl
  | symbol => rfl
  | relation hx hy => exact congrArg Value.bool (CmpOp.holds_negate hx.isNaN_meaning hy.isNaN_meaning _)
  | @negation x hx =>
    rw [Symbolic.not]
    split
    · next hb =>
      have hbool := hx.isBool_meaning hb
      rw [meaning]
      cases hv : meaning σ x with
      | bool b => exact congrArg Value.bool (Bool.not_not b).symm
      | number => rw [hv] at hbool; cases hbool
    · rfl
  | logical => rfl

theorem Logical.flatten {xs : List Symbolic} (h : ∀ x ∈ xs, Logical σ x) :
    ∀ x ∈ flatten op xs, Logical σ x := by
  apply forall_mem_flatten _ h
  intro ys hys
  cases hys with
  | logical _ hys => exact hys

/-- The operands of an operand stand for it, as long as there is one at all. -/
theorem exchangeable_flatten {xs : List Symbolic} (h : ∀ x ∈ xs, Logical σ x) :
    Value.Exchangeable op ((flatten op xs).map (meaning σ)) (xs.map (meaning σ)) := by
  fun_induction Symbolic.flatten op xs with
  | case1 => exact .refl op _
  | case2 ys xs ih =>
    rw [List.forall_mem_cons] at h
    cases h.1 with
    | logical hne _ =>
      have hvalues : ys.map (meaning σ) ≠ [] := mt List.map_eq_nil_iff.1 hne
      rw [List.map_append, List.map_cons, meaning, meanings_eq_map]
      exact ((ih h.2).append _).trans (Value.exchangeable_flatten hvalues _)
  | case3 op' ys xs _ ih =>
    rw [List.forall_mem_cons] at h
    exact (ih h.2).cons _
  | case4 x xs _ ih =>
    rw [List.forall_mem_cons] at h
    exact (ih h.2).cons _

theorem mem_distinct {xs : List Symbolic} (hxs : ∀ x ∈ xs, Logical σ x) (h : x ∈ xs) :
    x ∈ distinct xs := by
  induction xs using List.reverseRecOn with
  | nil => cases h
  | append_singleton xs y ih =>
    rw [List.forall_mem_append, List.forall_mem_singleton] at hxs
    have hkept : x ∈ xs → x ∈ distinct xs := ih hxs.1
    rw [distinct_append]
    split
    · next hany =>
      rcases List.mem_append.1 h with h | h
      · exact hkept h
      · obtain ⟨z, hz, hzy⟩ := List.any_eq_true.1 hany
        rw [List.mem_singleton.1 h, ← (hxs.1 z (mem_of_mem_distinct hz)).eq_of_beq hzy]
        exact hz
    · exact List.mem_append.2 ((List.mem_append.1 h).imp_left hkept)

theorem eq_truth_of_isTruth (h : isTruth b x = true) : x = truth b := by
  cases x with
  | truth c => exact congrArg truth (LawfulBEq.eq_of_beq h).symm
  | _ => cases h

/-- The value of a connective of the operands that are left, if none decides by itself. -/
def leftValue (σ : Scope) (op : BoolOp) : Option (List Symbolic) → Value
  | none => .bool (!op.identity)
  | some xs => .connect op (xs.map (meaning σ))

theorem leftValue_undecided (op : BoolOp) (xs : List Symbolic) :
    leftValue σ op (undecided op xs) = .connect op (xs.map (meaning σ)) := by
  fun_induction undecided op xs with
  | case1 xs ih =>
    rw [ih, List.map_cons, meaning, Value.connect_identity]
  | case2 b xs hb =>
    obtain rfl : b = !op.identity := Bool.eq_not_iff.2 hb
    rw [List.map_cons, meaning, Value.connect_of_decides (by cases op <;> rfl)]
    rfl
  | case3 => rfl

/-- Constants that do not decide and repetitions may be left out of truth values. -/
theorem any_decides_distinct {xs : List Symbolic} (hxs : ∀ x ∈ xs, Logical σ x) (op : BoolOp) :
    ((distinct (xs.filter fun x => !isTruth op.identity x)).map (meaning σ)).any
        (Value.decides op) = (xs.map (meaning σ)).any (Value.decides op) := by
  rw [Bool.eq_iff_iff]
  simp only [List.any_map, List.any_eq_true, Function.comp_apply]
  constructor
  · rintro ⟨x, hx, hdecides⟩
    exact ⟨x, (List.mem_filter.1 (mem_of_mem_distinct hx)).1, hdecides⟩
  · rintro ⟨x, hx, hdecides⟩
    have hkept : isTruth op.identity x = false := by
      rw [Bool.eq_false_iff]
      intro htruth
      rw [eq_truth_of_isTruth htruth, meaning, Value.decides_bool, bne_self_eq_false] at hdecides
      cases hdecides
    refine ⟨x, mem_distinct (fun y hy => hxs y (List.mem_filter.1 hy).1) ?_, hdecides⟩
    exact List.mem_filter.2 ⟨hx, by rw [hkept, Bool.not_false]⟩

theorem leftValue_remaining {xs : List Symbolic} (hxs : ∀ x ∈ xs, Logical σ x) (op : BoolOp) :
    leftValue σ op (remaining op xs) = .connect op (xs.map (meaning σ)) := by
  unfold remaining
  split
  · next hall =>
    have hbool : ∀ x ∈ xs, (meaning σ x).isBool = true :=
      fun x hx => (hxs x hx).isBool_meaning (List.all_eq_true.1 hall x hx)
    rw [Value.connect_bools (List.forall_mem_map.2 hbool)]
    split
    · next hany =>
      obtain ⟨x, hx, htruth⟩ := List.any_eq_true.1 hany
      have hdecides : (xs.map (meaning σ)).any (Value.decides op) = true := by
        refine List.any_eq_true.2 ⟨_, List.mem_map_of_mem hx, ?_⟩
        rw [eq_truth_of_isTruth htruth, meaning]
        cases op <;> rfl
      rw [hdecides, Bool.true_bne]
      rfl
    · have hkept : ∀ x ∈ distinct (xs.filter fun x => !isTruth op.identity x),
          (meaning σ x).isBool = true :=
        fun x hx => hbool x (List.mem_filter.1 (mem_of_mem_distinct hx)).1
      rw [leftValue, Value.connect_bools (List.forall_mem_map.2 hkept), any_decides_distinct hxs]
  · exact leftValue_undecided op xs

/-- Putting the operands of a connective together does not change its value. -/
theorem logic_spec {xs : List Symbolic} (hxs : ∀ x ∈ xs, Logical σ x) (op : BoolOp) :
    Logical σ (logic op xs) ∧ meaning σ (logic op xs) = .connect op (xs.map (meaning σ)) := by
  have hflat : ∀ x ∈ flatten op xs, Logical σ x := .flatten hxs
  rw [← (exchangeable_flatten hxs).connect_eq, ← leftValue_remaining hflat op]
  unfold logic
  cases hleft : remaining op (flatten op xs) with
  | none => exact ⟨.truth, rfl⟩
  | some ys =>
    have hys : ∀ y ∈ ys, Logical σ y := fun y hy => hflat y (mem_of_remaining hleft hy)
    match ys with
    | [] => exact ⟨.truth, rfl⟩
    | [y] => exact ⟨hys y List.mem_cons_self, rfl⟩
    | y :: z :: ys =>
      refine ⟨.logical (List.cons_ne_nil _ _) hys, ?_⟩
      rw [meaning, meanings_eq_map]
      rfl

end Formulae.Symbolic
