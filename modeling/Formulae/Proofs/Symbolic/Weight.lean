import Formulae.Proofs.Symbolic.Calls
import Formulae.Proofs.Symbolic.Order

namespace Formulae.Symbolic
set_option autoImplicit true

variable {x y : Symbolic}

mutual

/-- The weight as a factor or as a base. -/
def weightAs (base : Bool) : Symbolic → Nat
  | number _ => if base then 4 else 0
  | truth _ | symbol _ => 4
  | sum xs => max 4 (termWeight xs + 2)
  | product xs => if base then max 4 (baseWeights xs) + 1 else max 4 (factorWeights xs)
  | power b e => weightAs true b + weightAs false e + if base then 1 else 0
  | remainder x y | relation _ x y => weightAs false x + weightAs false y + 6
  | call _ xs | logical _ xs => termWeight xs + 4
  | negation x => weightAs false x + 5

/-- The weight of terms. Each term that is no number counts as one more than it weighs. -/
def termWeight : List Symbolic → Nat
  | [] => 0
  | x :: xs => (if x.isNumber then 0 else weightAs false x + 1) + termWeight xs

def factorWeights : List Symbolic → Nat
  | [] => 0
  | x :: xs => weightAs false x + (if x.isProduct then 1 else 0) + factorWeights xs

def baseWeights : List Symbolic → Nat
  | [] => 0
  | x :: xs => weightAs true x + baseWeights xs

end

def weight (x : Symbolic) : Nat := weightAs false x

def baseWeight (x : Symbolic) : Nat := weightAs true x

def termCost (x : Symbolic) : Nat := if x.isNumber then 0 else x.weight + 1

/-- Powers and products weigh more as a base than as a factor. -/
def lift : Symbolic → Nat
  | power _ _ | product _ => 1
  | _ => 0

def weights (xs : List Symbolic) : Nat := (xs.map weight).sum

@[simp] theorem weight_number : weight (number c) = 0 := rfl

@[simp] theorem weight_sum : weight (sum xs) = max 4 (termWeight xs + 2) := rfl

@[simp] theorem weight_product : weight (product xs) = max 4 (factorWeights xs) := rfl

@[simp] theorem weight_power : weight (power b e) = b.baseWeight + e.weight := rfl

@[simp] theorem weight_remainder : weight (remainder x y) = x.weight + y.weight + 6 := rfl

@[simp] theorem weight_relation : weight (relation op x y) = x.weight + y.weight + 6 := rfl

@[simp] theorem weight_call : weight (call f xs) = termWeight xs + 4 := rfl

@[simp] theorem weight_logical : weight (logical op xs) = termWeight xs + 4 := rfl

@[simp] theorem weight_negation : weight (negation x) = x.weight + 5 := rfl

@[simp] theorem baseWeight_number : baseWeight (number c) = 4 := rfl

@[simp] theorem baseWeight_product : baseWeight (product xs) = max 4 (baseWeights xs) + 1 := rfl

@[simp] theorem baseWeight_power : baseWeight (power b e) = b.baseWeight + e.weight + 1 := rfl

theorem termWeight_eq (xs : List Symbolic) : termWeight xs = (xs.map termCost).sum := by
  induction xs with
  | nil => rfl
  | cons x xs ih => simp only [termWeight, ih, List.map_cons, List.sum_cons, termCost, weight]

theorem factorWeights_eq (xs : List Symbolic) :
    factorWeights xs = (xs.map fun x => x.weight + if x.isProduct then 1 else 0).sum := by
  induction xs with
  | nil => rfl
  | cons x xs ih => simp only [factorWeights, ih, List.map_cons, List.sum_cons, weight]

theorem baseWeights_eq (xs : List Symbolic) : baseWeights xs = (xs.map baseWeight).sum := by
  induction xs with
  | nil => rfl
  | cons x xs ih => simp only [baseWeights, ih, List.map_cons, List.sum_cons, baseWeight]

theorem four_le_baseWeight (x : Symbolic) : 4 ≤ x.baseWeight := by
  induction x using Symbolic.induct with
  | power b e ihb ihe => rw [baseWeight_power]; omega
  | product xs => rw [baseWeight_product]; omega
  | _ => simp [baseWeight, weightAs]

/-- What is neither number nor power nor product weighs the same as a base and as a factor. -/
theorem weight_add_lift_le (x : Symbolic) : x.weight + x.lift ≤ x.baseWeight := by
  induction x using Symbolic.induct with
  | number => simp [lift]
  | power b e => simp [lift]
  | product xs ih =>
    have hle : factorWeights xs ≤ baseWeights xs := by
      rw [factorWeights_eq, baseWeights_eq]
      apply List.sum_le_sum
      intro x hx
      have hx := ih x hx
      cases x <;> simp_all [lift, isProduct]
    simp only [weight_product, baseWeight_product, lift]
    omega
  | _ => rfl

theorem weight_sorted (xs : List Symbolic) : termWeight (sorted xs) = termWeight xs := by
  rw [termWeight_eq, termWeight_eq]
  exact ((sorted_perm xs).map _).sum_eq

theorem termWeight_append (xs ys : List Symbolic) :
    termWeight (xs ++ ys) = termWeight xs + termWeight ys := by
  simp only [termWeight_eq, List.map_append, List.sum_append]

theorem termWeight_reverse (xs : List Symbolic) : termWeight xs.reverse = termWeight xs := by
  simp only [termWeight_eq, List.map_reverse, List.sum_reverse]

theorem termCost_le (x : Symbolic) : x.termCost ≤ x.weight + 1 := by
  unfold termCost
  split <;> omega

theorem le_sum_of_mem (μ : α → Nat) {a : α} {as : List α} (h : a ∈ as) : μ a ≤ (as.map μ).sum :=
  List.single_le_sum (fun _ _ => Nat.zero_le _) _ (List.mem_map_of_mem h)

theorem sum_flatMap_le {f : α → List β} {μ : β → Nat} {ν : α → Nat} {xs : List α}
    (h : ∀ x ∈ xs, ((f x).map μ).sum ≤ ν x) : ((xs.flatMap f).map μ).sum ≤ (xs.map ν).sum := by
  induction xs with
  | nil => exact Nat.le_refl 0
  | cons x xs ih =>
    rw [List.forall_mem_cons] at h
    rw [List.flatMap_cons, List.map_append, List.sum_append, List.map_cons, List.sum_cons]
    exact Nat.add_le_add h.1 (ih h.2)

theorem weight_le_termWeight {xs : List Symbolic} (h : x ∈ xs) : x.weight ≤ termWeight xs := by
  have hle := le_sum_of_mem termCost h
  rw [← termWeight_eq] at hle
  refine le_trans ?_ hle
  unfold termCost
  cases x with
  | number => exact Nat.zero_le _
  | _ => exact Nat.le_succ _

theorem weight_lt_sum {xs : List Symbolic} (h : x ∈ xs) : x.weight < (sum xs).weight := by
  have hle := weight_le_termWeight h
  rw [weight_sum]
  omega

/-- The terms of nested sums weigh no more than the sums. -/
theorem termWeight_terms_le (x : Symbolic) : termWeight x.terms ≤ x.termCost := by
  induction x using Symbolic.induct with
  | sum xs ih =>
    simp only [termWeight_eq] at ih
    have hxs := sum_flatMap_le ih
    rw [← termsOfList_eq, ← termWeight_eq, ← termWeight_eq] at hxs
    rw [terms, termCost, weight_sum]
    simp only [isNumber, number?, Option.isSome_none, Bool.false_eq_true, if_false]
    omega
  | _ => simp [terms, termWeight_eq]

theorem termWeight_termsOfList_le (xs : List Symbolic) :
    termWeight (termsOfList xs) ≤ termWeight xs := by
  rw [termsOfList_eq, termWeight_eq, termWeight_eq]
  apply sum_flatMap_le
  intro x _
  rw [← termWeight_eq]
  exact termWeight_terms_le x

theorem weights_factors_le (x : Symbolic) : weights x.factors ≤ x.weight := by
  induction x using Symbolic.induct with
  | product xs ih =>
    have hxs := sum_flatMap_le ih
    rw [← factorsOfList_eq] at hxs
    have hle : (xs.map weight).sum ≤ factorWeights xs := by
      rw [factorWeights_eq]
      exact List.sum_le_sum fun x _ => Nat.le_add_right _ _
    rw [factors, weight_product]
    exact (hxs.trans hle).trans (Nat.le_max_right _ _)
  | _ => simp [factors, weights]

theorem weights_factorsOfList_le (xs : List Symbolic) :
    weights (factorsOfList xs) ≤ weights xs := by
  rw [factorsOfList_eq]
  exact sum_flatMap_le fun x _ => weights_factors_le x

theorem not_product_of_mem_factors (x : Symbolic) : ∀ y ∈ x.factors, y.isProduct = false := by
  induction x using Symbolic.induct with
  | product xs ih =>
    rw [factors, factorsOfList_eq]
    intro y hy
    obtain ⟨x, hx, hy⟩ := List.mem_flatMap.1 hy
    exact ih x hx y hy
  | _ => simp [factors, isProduct]

theorem not_product_of_mem_factorsOfList (h : y ∈ factorsOfList xs) : y.isProduct = false := by
  rw [factorsOfList_eq] at h
  obtain ⟨x, -, hy⟩ := List.mem_flatMap.1 h
  exact not_product_of_mem_factors x y hy

theorem sum_filter_le (p : α → Bool) (μ : α → Nat) (xs : List α) :
    ((xs.filter p).map μ).sum ≤ (xs.map μ).sum :=
  ((List.filter_sublist (p := p)).map μ).sum_le_sum fun _ _ => Nat.zero_le _

theorem sum_combineAt_le {μ : Symbolic × α → Nat} {combine : α → α → α} {k' : Symbolic} {value : α}
    (hμ : ∀ k v, μ (k, combine v value) ≤ μ (k, v) + μ (k', value))
    (entries : List (Symbolic × α)) :
    ((combineAt combine k' value entries).map μ).sum ≤ (entries.map μ).sum + μ (k', value) := by
  induction entries with
  | nil => simp [combineAt]
  | cons e entries ih =>
    obtain ⟨k, v⟩ := e
    have hle := hμ k v
    unfold combineAt
    split <;> simp only [List.map_cons, List.sum_cons] <;> omega

/-- Collecting does not add to what the entries weigh, if combining two of them does not. -/
theorem sum_collect_le {μ : Symbolic × α → Nat} {combine : α → α → α}
    {entries : List (Symbolic × α)}
    (hμ : ∀ e ∈ entries, ∀ k v, μ (k, combine v e.2) ≤ μ (k, v) + μ e) :
    ((collect combine entries).map μ).sum ≤ (entries.map μ).sum := by
  induction entries using List.reverseRecOn with
  | nil => exact Nat.le_refl 0
  | append_singleton entries e ih =>
    rw [List.forall_mem_append, List.forall_mem_singleton] at hμ
    have hlast : ((combineAt combine e.1 e.2 (collect combine entries)).map μ).sum ≤ _ :=
      sum_combineAt_le hμ.2 (collect combine entries)
    have hbefore := ih hμ.1
    rw [collect, List.foldl_append]
    simp only [List.map_append, List.map_singleton, List.sum_append, List.sum_singleton]
    exact hlast.trans (Nat.add_le_add_right hbefore _)

theorem weight_splitCoefficient_le (x : Symbolic) : x.splitCoefficient.1.weight ≤ x.weight := by
  unfold splitCoefficient
  split
  · simp only [weight_product, factorWeights_eq, List.map_cons, List.sum_cons, weight_number]
    omega
  · simp only [weight_product, factorWeights_eq, List.map_cons, List.sum_cons, weight_number]
    omega
  · exact Nat.le_refl _

/-- Like terms weigh no more than the terms. -/
theorem sum_likeTerms_le (xs : List Symbolic) :
    ((likeTerms xs).map fun t => t.1.weight + 1).sum ≤ termWeight (termsOfList xs) := by
  calc ((likeTerms xs).map fun t => t.1.weight + 1).sum
      ≤ ((collect (· + ·) ((others (termsOfList xs).reverse).map splitCoefficient)).map
          fun t => t.1.weight + 1).sum := sum_filter_le _ _ _
    _ ≤ (((others (termsOfList xs).reverse).map splitCoefficient).map
          fun t => t.1.weight + 1).sum := sum_collect_le fun _ _ _ _ => Nat.le_add_right _ _
    _ ≤ ((others (termsOfList xs).reverse).map termCost).sum := by
      rw [List.map_map]
      apply List.sum_le_sum
      intro x hx
      have hnumber : x.isNumber = false := by simpa using (List.mem_filter.1 hx).2
      have hle := weight_splitCoefficient_le x
      simp only [termCost, hnumber, Function.comp_apply, Bool.false_eq_true, if_false]
      omega
    _ ≤ ((termsOfList xs).reverse.map termCost).sum := sum_filter_le _ _ _
    _ = termWeight (termsOfList xs) := by rw [← termWeight_eq, termWeight_reverse]

/-- The weight of a base and of exponents that are to be added. -/
def entryWeight (p : Symbolic × List Symbolic) : Nat :=
  p.1.baseWeight + weights p.2 + 4 * (p.2.length - 1)

theorem four_le_weight (h : x.isNumber = false) : 4 ≤ x.weight := by
  cases x with
  | number => cases h
  | power b e =>
    have hb := four_le_baseWeight b
    rw [weight_power]
    omega
  | _ => simp [weight, weightAs]

theorem termCost_mono (h : x.weight ≤ y.weight) : x.termCost ≤ y.termCost := by
  unfold termCost
  split
  · exact Nat.zero_le _
  · next hx =>
    have hpos := four_le_weight (Bool.eq_false_iff.2 hx)
    split
    · next hy =>
      cases y with
      | number => rw [weight_number] at h; omega
      | _ => cases hy
    · omega

theorem entryWeight_splitPower (hnumber : x.isNumber = false) (hproduct : x.isProduct = false) :
    entryWeight x.splitPower = x.weight := by
  cases x with
  | number => cases hnumber
  | product => cases hproduct
  | power b e => simp [splitPower, entryWeight, weights]
  | _ => rfl

/-- Equal bases and the sums of their exponents weigh no more than the factors. -/
theorem sum_likeBases_le (xs : List Symbolic) :
    ((likeBases xs).map entryWeight).sum ≤ weights xs := by
  calc ((likeBases xs).map entryWeight).sum
      ≤ (((others (factorsOfList xs).reverse).map splitPower).map entryWeight).sum := by
        apply sum_collect_le
        rintro ⟨k', w⟩ - k v
        have hbase := four_le_baseWeight k'
        simp only [entryWeight, weights, List.map_append, List.sum_append, List.length_append]
        omega
    _ ≤ ((others (factorsOfList xs).reverse).map weight).sum := by
      rw [List.map_map]
      apply List.sum_le_sum
      intro x hx
      obtain ⟨hmem, hnumber⟩ := List.mem_filter.1 hx
      have hproduct := not_product_of_mem_factorsOfList (List.mem_reverse.1 hmem)
      exact (entryWeight_splitPower (by simpa using hnumber) hproduct).le
    _ ≤ ((factorsOfList xs).reverse.map weight).sum := sum_filter_le _ _ _
    _ ≤ weights xs := by
      rw [List.map_reverse, List.sum_reverse]
      exact weights_factorsOfList_le xs

theorem weights_le_size (xs : List Symbolic) {μ : Symbolic → Nat}
    (h : ∀ x ∈ xs, μ x ≤ 6 * x.size) : (xs.map μ).sum ≤ 6 * sizeOfList xs := by
  induction xs with
  | nil => exact Nat.zero_le _
  | cons x xs ih =>
    rw [List.forall_mem_cons] at h
    have hxs := ih h.2
    simp only [List.map_cons, List.sum_cons, sizeOfList]
    omega

theorem weightAs_lt_size (s : Symbolic) : ∀ base, weightAs base s < 6 * s.size := by
  induction s using Symbolic.induct with
  | number x => intro base; cases base <;> simp [weightAs, size]
  | truth | symbol => intro base; simp [weightAs, size]
  | sum xs ih | call f xs ih | logical op xs ih =>
    intro base
    have hxs := weights_le_size xs (μ := termCost) fun x hx =>
      (termCost_le x).trans (ih x hx false)
    rw [← termWeight_eq] at hxs
    simp only [weightAs, size]
    omega
  | product xs ih =>
    intro base
    cases base with
    | false =>
      have hxs := weights_le_size xs (μ := fun x => x.weight + if x.isProduct then 1 else 0)
        fun x hx => by
          have hx : x.weight < 6 * x.size := ih x hx false
          split <;> omega
      rw [← factorWeights_eq] at hxs
      simp only [weightAs, size, Bool.false_eq_true, if_false]
      omega
    | true =>
      have hxs := weights_le_size xs (μ := baseWeight) fun x hx => (ih x hx true).le
      rw [← baseWeights_eq] at hxs
      simp only [weightAs, size, if_true]
      omega
  | power b e ihb ihe =>
    intro base
    have hb := ihb true
    have he := ihe false
    simp only [weightAs, size]
    split <;> omega
  | remainder x y ihx ihy | relation op x y ihx ihy =>
    intro base
    have hx := ihx false
    have hy := ihy false
    simp only [weightAs, size]
    omega
  | negation x ih =>
    intro base
    have hx := ih false
    simp only [weightAs, size]
    omega

end Formulae.Symbolic
