import Formulae.Proofs.Number.Sign
import Formulae.Proofs.Symbolic.Ending

namespace Formulae.Symbolic
set_option autoImplicit true

/-- A product or a negative power is written by trees that may weigh as much. -/
def writingRank : Symbolic → Nat
  | product _ => 2
  | power _ e => if e.isNegative then 2 else 1
  | _ => 0

/-- What falls from a tree to the trees that its text is made of. -/
def writingCost (s : Symbolic) : Nat := 3 * s.weight + s.writingRank

theorem writingRank_le (s : Symbolic) : s.writingRank ≤ 2 * s.lift := by
  cases s with
  | power b e =>
    rw [writingRank, lift]
    split <;> decide
  | _ => exact Nat.le_refl _

theorem lift_le_writingRank (s : Symbolic) : s.lift ≤ s.writingRank := by
  cases s with
  | power b e =>
    rw [writingRank, lift]
    split <;> decide
  | product => exact Nat.le_succ 1
  | _ => exact Nat.le_refl _

theorem lift_le_one (s : Symbolic) : s.lift ≤ 1 := by cases s <;> simp [lift]

theorem writingCost_le (s : Symbolic) : s.writingCost ≤ 3 * s.weight + 2 := by
  have hrank := writingRank_le s
  have hlift := lift_le_one s
  rw [writingCost]
  omega

theorem writingCost_lt_of_weight {p s : Symbolic} (h : p.weight < s.weight) :
    p.writingCost < s.writingCost := by
  have hp := writingCost_le p
  change _ < 3 * s.weight + s.writingRank
  omega

theorem writingCost_le_baseWeight (s : Symbolic) : s.writingCost ≤ 3 * s.baseWeight := by
  have hrank := writingRank_le s
  have hweight := weight_add_lift_le s
  rw [writingCost]
  omega

theorem exists_divisor {b e : Symbolic} (h : e.isNegative = true) :
    ∃ n : Float, n < 0 ∧ e = number n ∧ (power b e).divisor? = some (pow b (number (-n))) := by
  cases e with
  | number n =>
    have hn : n < 0 := by simpa [isNegative, number?] using h
    exact ⟨n, hn, rfl, if_pos hn⟩
  | _ => cases h

/-- A power that has lost the sign of its exponent costs less to write. -/
theorem writingCost_divisor {x : Symbolic} (h : x.divisor? = some y) :
    y.writingCost ≤ 3 * x.weight + 1 := by
  unfold divisor? at h
  split at h
  · next b n =>
    split at h
    · next hn =>
      cases h
      rw [weight_power]
      rcases Call.fits (.pow b (number (-n))) with hpower | hle
      · have hpos : (number (-n)).isNegative = false := by
          simpa [isNegative, number?] using Number.not_neg_lt_zero hn
        simp only [Call.result] at hpower
        rw [hpower]
        simp [writingCost, writingRank, hpos]
      · have hrank := writingRank_le (pow b (number (-n)))
        simp only [writingCost, Call.result, weight_number] at hle ⊢
        omega
    · cases h
  · cases h

theorem mem_quotientParts {xs : List Symbolic} (h : p ∈ quotientParts xs) :
    ∃ x ∈ xs, x = p ∧ x.divisor? = none ∨ x.divisor? = some p := by
  have hsub : ∀ x ∈ (coefficientOf xs).2, x ∈ xs := by
    unfold coefficientOf
    split
    · exact fun x hx => List.mem_cons_of_mem _ hx
    · exact fun x hx => hx
  rcases List.mem_append.1 h with h | h
  · obtain ⟨hmem, hnone⟩ := List.mem_filter.1 h
    exact ⟨p, hsub p hmem, .inl ⟨rfl, Option.isNone_iff_eq_none.1 hnone⟩⟩
  · obtain ⟨x, hmem, hx⟩ := List.mem_filterMap.1 h
    exact ⟨x, hsub x hmem, .inr hx⟩

theorem writingCost_quotientParts {xs : List Symbolic} (h : p ∈ quotientParts xs) :
    p.writingCost ≤ 3 * factorWeights xs + 1 := by
  obtain ⟨x, hx, hp⟩ := mem_quotientParts h
  have hle := le_sum_of_mem (fun x => x.weight + if x.isProduct then 1 else 0) hx
  rw [← factorWeights_eq] at hle
  rcases hp with ⟨rfl, hnone⟩ | hdivisor
  · cases x with
    | product =>
      simp only [isProduct, if_true] at hle
      simp only [writingCost, writingRank]
      omega
    | power b e =>
      have hpos : e.isNegative = false := by
        rw [Bool.eq_false_iff]
        intro hneg
        obtain ⟨n, -, -, hsome⟩ := exists_divisor hneg
        rw [hsome] at hnone
        cases hnone
      simp only [writingCost, writingRank, hpos, Bool.false_eq_true, if_false]
      omega
    | _ => simp only [writingCost, writingRank]; omega
  · have hcost := writingCost_divisor hdivisor
    omega

theorem mem_sumParts {xs : List Symbolic} (h : p ∈ sumParts (inOrder xs)) :
    ∃ x ∈ xs, p = x ∨ p = x.signless := by
  have hsub : ∀ x ∈ inOrder xs, x ∈ xs := fun x hx => by
    rcases List.mem_append.1 hx with hx | hx <;> exact (List.mem_filter.1 hx).1
  cases hterms : inOrder xs with
  | nil =>
    rw [hterms] at h
    cases h
  | cons x ys =>
    rw [hterms] at h hsub
    rcases List.mem_cons.1 h with rfl | h
    · exact ⟨_, hsub _ List.mem_cons_self, .inl rfl⟩
    · obtain ⟨y, hy, rfl⟩ := List.mem_map.1 h
      exact ⟨y, hsub y (List.mem_cons_of_mem _ hy), .inr rfl⟩

theorem weight_signless_le (x : Symbolic) : x.signless.weight ≤ x.weight := by
  unfold signless
  split
  · exact Call.weight_mul_number_le (Call.fits (.mul [number (-1), x]))
  · exact Nat.le_refl _

theorem writingCost_powerParts {b e : Symbolic} (h : p ∈ (power b e).parts) :
    p.writingCost < (power b e).writingCost := by
  have hbase := writingCost_le_baseWeight b
  have hrank := lift_le_writingRank (power b e)
  rw [lift] at hrank
  have hcost : 3 * (b.baseWeight + e.weight) + 1 ≤ (power b e).writingCost := by
    rw [writingCost, weight_power]
    omega
  rw [parts] at h
  split at h
  · obtain rfl := List.mem_singleton.1 h
    omega
  split at h
  · next hneg =>
    have hle := writingCost_quotientParts h
    simp only [factorWeights_eq, List.map_singleton, List.sum_singleton, isProduct,
      Bool.false_eq_true, if_false, Nat.add_zero] at hle
    simp only [writingCost, writingRank, if_pos hneg] at hle ⊢
    omega
  · have hexponent := writingCost_le e
    have hfour := four_le_baseWeight b
    simp only [List.mem_cons, List.not_mem_nil, or_false] at h
    rcases h with rfl | rfl <;> omega

/-- Each tree that the text is made of costs less to write. -/
theorem writingCost_lt {s : Symbolic} (h : p ∈ s.parts) : p.writingCost < s.writingCost := by
  cases s with
  | number | truth | symbol => cases h
  | sum xs =>
    obtain ⟨x, hx, hpart⟩ := mem_sumParts h
    have hlt := weight_lt_sum hx
    have hle := weight_signless_le x
    rcases hpart with rfl | rfl <;> exact writingCost_lt_of_weight (by omega)
  | product xs =>
    have hle := writingCost_quotientParts h
    simp only [writingCost, writingRank, weight_product] at hle ⊢
    omega
  | power b e => exact writingCost_powerParts h
  | remainder x y | relation op x y =>
    simp only [parts, List.mem_cons, List.not_mem_nil, or_false] at h
    apply writingCost_lt_of_weight
    rcases h with rfl | rfl <;> simp <;> omega
  | call f xs | logical op xs =>
    have hle := weight_le_termWeight (show p ∈ xs from h)
    apply writingCost_lt_of_weight
    simp only [weight_call, weight_logical]
    omega
  | negation x =>
    obtain rfl := List.mem_singleton.1 h
    apply writingCost_lt_of_weight
    rw [weight_negation]
    omega

theorem operandText?_eq {write : Symbolic → Option String} {x : Symbolic} (h : write x = some t)
    (wanted : Nat → Bool) :
    operandText? write wanted x = some (enclose (wanted x.precedence) t) := by
  simp [operandText?, h]

/-- The text of a product, given those of its factors and divisors. -/
def quotientText (text : Symbolic → String) (xs : List Symbolic) : String :=
  productText (coefficientOf xs).1 ((factorsAbove xs).map fun x => factorText x (text x))
    ((factorsBelow xs).map fun x => factorText x (text x))

def sumText (text : Symbolic → String) : List Symbolic → String
  | [] => ""
  | x :: xs => text x ++ String.join (xs.map (laterText text))

/-- The text of a node, given those of its parts. -/
def nodeText (text : Symbolic → String) : Symbolic → String
  | number x => numberText x
  | truth b => if b then "True" else "False"
  | symbol x => x
  | sum xs => sumText text (inOrder xs)
  | product xs => quotientText text xs
  | power b e =>
    if e.isValue 0.5 then "sqrt(" ++ text b ++ ")"
    else if e.isNegative then quotientText text [power b e]
    else enclose (b.precedence ≤ 8) (text b) ++ "**" ++ enclose (e.precedence < 7) (text e)
  | remainder x y =>
    enclose (x.precedence < 6) (text x) ++ " % " ++ enclose (y.precedence ≤ 6) (text y)
  | call f xs => f ++ "(" ++ ", ".intercalate (xs.map text) ++ ")"
  | relation op x y =>
    enclose (x.precedence ≤ 4) (text x) ++ " " ++ op.symbol ++ " " ++
      enclose (y.precedence ≤ 4) (text y)
  | negation x => "not " ++ enclose (x.precedence < 3) (text x)
  | logical op xs =>
    (" " ++ op.word ++ " ").intercalate
      (xs.map fun x => enclose (x.precedence ≤ op.precedence) (text x))

theorem text?_quotient {text : Symbolic → String} {xs : List Symbolic}
    (h : ∀ p ∈ quotientParts xs, text? depth p = some (text p)) :
    quotientText? (text? depth) xs = some (quotientText text xs) := by
  rw [quotientParts, List.forall_mem_append] at h
  exact quotientText?_eq h.1 h.2

theorem text?_power {text : Symbolic → String} {b e : Symbolic}
    (h : ∀ p ∈ (power b e).parts, text? depth p = some (text p)) :
    text? (depth + 1) (power b e) = some (nodeText text (power b e)) := by
  rw [parts] at h
  rw [text?, nodeText]
  split
  · next hroot =>
    rw [if_pos hroot, List.forall_mem_singleton] at h
    rw [h]
    rfl
  · next hroot =>
    rw [if_neg hroot] at h
    split
    · next hneg =>
      rw [if_pos hneg] at h
      exact text?_quotient h
    · next hpos =>
      rw [if_neg hpos, List.forall_mem_cons, List.forall_mem_singleton] at h
      rw [operandText?_eq h.1, operandText?_eq h.2]
      rfl

/-- The text of a node is made of the texts of its parts, whatever the depth that they need. -/
theorem text?_node {text : Symbolic → String} {s : Symbolic}
    (h : ∀ p ∈ s.parts, text? depth p = some (text p)) :
    text? (depth + 1) s = some (nodeText text s) := by
  cases s with
  | number | truth | symbol => rfl
  | sum xs =>
    rw [parts] at h
    change sumText? (text? depth) (inOrder xs) = some (sumText text (inOrder xs))
    cases hterms : inOrder xs with
    | nil => rfl
    | cons x ys =>
      rw [hterms, sumParts, List.forall_mem_cons, List.forall_mem_map] at h
      exact sumText?_eq h.1 h.2
  | product xs => exact text?_quotient h
  | power b e => exact text?_power h
  | remainder x y =>
    rw [parts, List.forall_mem_cons, List.forall_mem_singleton] at h
    rw [text?, operandText?_eq h.1, operandText?_eq h.2]
    rfl
  | relation op x y =>
    rw [parts, List.forall_mem_cons, List.forall_mem_singleton] at h
    rw [text?, operandText?_eq h.1, operandText?_eq h.2]
    rfl
  | call f xs =>
    rw [parts] at h
    rw [text?, mapM_eq_map h]
    rfl
  | negation x =>
    rw [text?, operandText?_eq (h x List.mem_cons_self)]
    rfl
  | logical op xs =>
    rw [parts] at h
    rw [text?, mapM_eq_map fun x hx => operandText?_eq (h x hx) (· ≤ op.precedence)]
    rfl

/-- By strong induction on what the tree costs to write. -/
theorem exists_text? (s : Symbolic) :
    ∃ t, ∀ depth, s.writingCost < depth → text? depth s = some t := by
  induction hn : s.writingCost using Nat.strongRecOn generalizing s with
  | ind n ih =>
    subst hn
    have hpart p (hp : p ∈ s.parts) depth (hdepth : p.writingCost < depth) :
        text? depth p = some ((text? (p.writingCost + 1) p).getD "") := by
      obtain ⟨t, ht⟩ := ih _ (writingCost_lt hp) p rfl
      rw [ht depth hdepth, ht _ (Nat.lt_succ_self _), Option.getD_some]
    refine ⟨nodeText (fun p => (text? (p.writingCost + 1) p).getD "") s, ?_⟩
    rintro (_ | depth) hdepth
    · cases hdepth
    · refine text?_node fun p hp => hpart p hp depth ?_
      have hlt := writingCost_lt hp
      omega

theorem writingCost_lt_depthFor (s : Symbolic) : s.writingCost < depthFor s.size := by
  have hle := writingCost_le s
  have hlt : s.weight < 6 * s.size := weightAs_lt_size s false
  unfold depthFor
  nlinarith

theorem text?_eq {s : Symbolic} (h : s.writingCost < depth) : text? depth s = some s.text := by
  obtain ⟨t, ht⟩ := exists_text? s
  rw [text, ht _ (writingCost_lt_depthFor s), ht _ h, Option.getD_some]

theorem text_eq_nodeText (s : Symbolic) : s.text = nodeText text s := by
  have hparts : ∀ p ∈ s.parts, text? s.writingCost p = some p.text :=
    fun p hp => text?_eq (writingCost_lt hp)
  exact Option.some.inj ((text?_eq (Nat.lt_succ_self _)).symm.trans (text?_node hparts))

/-- Sums, products, powers and texts are what is found within a bound on the depth that is never
reached, so that any greater bound gives the same. -/
theorem operations_end (xs : List Symbolic) (b e s : Symbolic) (more : Nat) :
    add? (depthFor (sizeOfList xs) + more) xs = some (add xs) ∧
      mul? (depthFor (sizeOfList xs) + more) xs = some (mul xs) ∧
      pow? (depthFor (b.size + e.size) + more) b e = some (pow b e) ∧
      text? (depthFor s.size + more) s = some s.text := by
  refine ⟨?_, ?_, ?_, ?_⟩
  · exact Call.result?_eq ((Call.cost_lt_bound (.add xs)).trans_le (Nat.le_add_right _ _))
  · exact Call.result?_eq ((Call.cost_lt_bound (.mul xs)).trans_le (Nat.le_add_right _ _))
  · exact Call.result?_eq ((Call.cost_lt_bound (.pow b e)).trans_le (Nat.le_add_right _ _))
  · exact text?_eq ((writingCost_lt_depthFor s).trans_le (Nat.le_add_right _ _))

end Formulae.Symbolic
