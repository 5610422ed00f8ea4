import Formulae.Proofs.Symbolic.Factors

namespace Formulae.Symbolic
set_option autoImplicit true

variable {xs fs : List Symbolic}

/-- What is multiplied with in place of dividing. -/
def inverse (x : Symbolic) : Symbolic := pow x (number (-1))

theorem isWhole_neg_one : (number (-1)).isWhole = true := by decide +kernel

theorem inverse_eq {b : Symbolic} (hb : b.isNumber = false) :
    inverse b = opened (number (-1)) b := by
  have hvalues : (number (-1)).isValue 0 = false ∧ (number (-1)).isValue 1 = false := by
    decide +kernel
  rw [inverse, pow_of_proper hb hvalues.1 hvalues.2, if_pos isWhole_neg_one]

theorem opened_eq_power {b : Symbolic} (h : openedCalls e b = []) (e' : Symbolic) :
    opened e' b = power b e' ∧ b.base = b ∧ b.isProduct = false := by
  cases b with
  | power => cases h
  | product => simp [openedCalls] at h
  | _ => exact ⟨rfl, rfl, rfl⟩

/-- The power of the same base with the opposite exponent, unless it is a number. -/
theorem pow_neg {b : Symbolic} (hpower : (power b (number n)).Tidy) (hone : (-n == 1) = false)
    (hnumber : (pow b (number (-n))).isNumber = false) :
    pow b (number (-n)) = power b (number (-n)) := by
  obtain ⟨⟨hnzero, hnone, hbase⟩, hpower⟩ := hpower
  have hpower : pow b (number n) = power b (number n) := hpower
  have hzero : (number (-n)).isValue 0 = false := (Number.neg_beq_zero n).trans hnzero
  cases hb : b.isNumber with
  | true =>
    cases b with
    | number x =>
      have hone : (number (-n)).isValue 1 = false := hone
      rw [pow_eq, powerStep, hzero, hone, hbase] at hnumber ⊢
      simp only [properPower, numberPower, Bool.false_eq_true, if_false] at hnumber ⊢
      split at hnumber
      · cases hnumber
      · next hinfinite => rw [if_neg hinfinite]
    | _ => cases hb
  | false =>
    rw [pow_of_proper hb hzero hone]
    split
    · next hwhole =>
      have hwhole : (number n).isWhole = true := (Number.isSome_integer?_neg n).symm.trans hwhole
      rw [pow_of_proper hb hnzero hnone, if_pos hwhole] at hpower
      exact (opened_eq_power (openedCalls_of_power hwhole hpower) _).1
    · rfl

/-- What a quotient is divided by, and the factor that stands for it in the product. -/
structure Divides (d x : Symbolic) : Prop where
  canonical : Canonical d
  number : d.isNumber = false
  product : d.isProduct = false
  base : d.base = x.base
  inverse_eq : inverse d = x

/-- A power with the exponent minus one is divided by its base. -/
theorem divides_base {b : Symbolic} (h : Canonical (power b (number (-1))))
    (hnumber : b.isNumber = false) : Divides b (power b (number (-1))) := by
  have hpower : inverse b = power b (number (-1)) := h.neat.gathered
  have hopened : opened (number (-1)) b = power b (number (-1)) :=
    (inverse_eq hnumber).symm.trans hpower
  obtain ⟨-, hbase, hproduct⟩ :=
    opened_eq_power (openedCalls_of_power isWhole_neg_one hopened) (number (-1))
  exact ⟨h.operand b (by simp [operands]), hnumber, hproduct, hbase, hpower⟩

/-- Any other negative power is divided by the power with the opposite exponent. -/
theorem divides_power {b : Symbolic} (h : Canonical (power b (number n))) (hn : n < 0)
    (hone : (-n == 1) = false) (hnumber : (pow b (number (-n))).isNumber = false) :
    Divides (power b (number (-n))) (power b (number n)) := by
  obtain ⟨hzero, -, hbase⟩ := h.neat.shape
  have hzero' : (-n == 0) = false := (Number.neg_beq_zero n).trans hzero
  have hoperands : Canonical b ∧ Canonical (number n) := by simpa [operands] using h.operand
  have hexponent : Canonical (number (-n)) :=
    .number ((Number.isFinite_neg n).trans hoperands.2.settled.node.1) (Number.ne_neg_zero hzero')
  have hnone : (power b (number (-n))).divisor? = none := if_neg (Number.not_neg_lt_zero hn)
  have hcanonical : Canonical (power b (number (-n))) :=
    .node ⟨⟨hzero', hone, hbase⟩, pow_neg h.neat.everywhere.node hone hnumber⟩
      (.power hoperands.1.neat.formed .number) trivial (by simp [Settled, hnone])
      (by simpa [operands] using ⟨hoperands.1, hexponent⟩)
  have hmul := @AreFactors.mul_productStep [] [] (-n) (-1) .nil (.nil _) (.nil _)
    (by rw [Number.neg_one_times, Number.neg_neg]; exact hzero)
  rw [Number.neg_one_times, Number.neg_neg] at hmul
  have hinverse : inverse (power b (number (-n))) = power b (number n) :=
    calc inverse (power b (number (-n)))
        = pow b (mul [number (-n), number (-1)]) := inverse_eq rfl
      _ = pow b (number n) := congrArg (pow b) hmul
      _ = power b (number n) := h.neat.gathered
  exact ⟨hcanonical, rfl, rfl, rfl, hinverse⟩

theorem Canonical.divides {x : Symbolic} (h : Canonical x) (hd : x.divisor? = some d) :
    Divides d x := by
  have hsettled := h.settled.node
  unfold divisor? at hd
  split at hd
  · next b n =>
    split at hd
    · next hn =>
      cases hd
      have hnumber : (pow b (.number (-n))).isNumber = false := hsettled _ (if_pos hn)
      cases hone : (-n == 1) with
      | true =>
        have hone : -n = 1 := Number.eq_one_of_beq hone
        have hminus : n = -1 := by rw [← hone, Number.neg_neg]
        subst hminus
        rw [hone, pow_one] at hnumber ⊢
        exact divides_base h hnumber
      | false =>
        rw [pow_neg h.neat.everywhere.node hone hnumber]
        exact divides_power h hn hone hnumber
    · cases hd
  · cases hd

namespace AreFactors

/-- The inverse of a product is the product of the inverses. -/
theorem inverse_productStep (h : AreFactors fs) (hne : fs ≠ [])
    (hinverse : AreFactors (fs.map inverse)) :
    inverse (productStep 1 fs) = productStep 1 (fs.map inverse) := by
  rcases h.productStep_cases (.one fs) with ⟨hnil, -⟩ | ⟨f, rfl, -, hstep⟩ | ⟨-, hstep⟩
  · exact absurd hnil hne
  · rw [hstep, List.map_singleton, productStep_one hinverse]
  · have hperm := (sorted_perm fs).map inverse
    have hpowers := hinverse.perm hperm
    have hcoefficient : coefficient ((sorted fs).map inverse) = 1 := by
      rw [coefficient, factorsOfList_eq_self hpowers.product]
      exact foldNumbers_of_others (fun f hf => hpowers.number f (List.mem_reverse.1 hf)) 1
    have hothers : (others (factorsOfList ((sorted fs).map inverse))).Perm (fs.map inverse) := by
      rw [factorsOfList_eq_self hpowers.product, others_eq_self hpowers.number]
      exact hperm
    have hmul := hinverse.mul_eq hothers (by rw [hcoefficient, one_beq_zero])
    rw [hcoefficient] at hmul
    rw [hstep, withCoefficient_one, inverse_eq rfl]
    exact hmul

end AreFactors

theorem map_inverse_divisors (hfs : ∀ f ∈ fs, Canonical f) :
    (fs.filterMap divisor?).map inverse = fs.filter fun f => !f.divisor?.isNone := by
  induction fs with
  | nil => rfl
  | cons f fs ih =>
    rw [List.forall_mem_cons] at hfs
    cases hf : f.divisor? with
    | none => rw [List.filterMap_cons_none hf, ih hfs.2, List.filter_cons_of_neg (by simp [hf])]
    | some d =>
      rw [List.filterMap_cons_some hf, List.map_cons, ih hfs.2, (hfs.1.divides hf).inverse_eq,
        List.filter_cons_of_pos (by simp [hf])]

/-- The factors of a product are those that stand above and the inverses of those below. -/
theorem perm_quotientParts (hfs : ∀ f ∈ (coefficientOf xs).2, Canonical f) :
    (factorsAbove xs ++ (factorsBelow xs).map inverse).Perm (coefficientOf xs).2 := by
  rw [factorsBelow, map_inverse_divisors hfs]
  exact List.filter_append_perm _ _

theorem AreFactors.divisors (h : AreFactors fs) : AreFactors (fs.filterMap divisor?) := by
  have hdivides d (hd : d ∈ fs.filterMap divisor?) : ∃ f, Divides d f := by
    obtain ⟨f, hf, hd⟩ := List.mem_filterMap.1 hd
    exact ⟨f, (h.canonical f hf).divides hd⟩
  refine ⟨fun d hd => ?_, fun d hd => ?_, fun d hd => ?_, ?_⟩
  · obtain ⟨f, hf⟩ := hdivides d hd
    exact hf.canonical
  · obtain ⟨f, hf⟩ := hdivides d hd
    exact hf.number
  · obtain ⟨f, hf⟩ := hdivides d hd
    exact hf.product
  · rw [List.pairwise_filterMap]
    refine h.bases.imp_of_mem fun {f g} hf hg hne d hd e he => ?_
    rw [((h.canonical f hf).divides hd).base, ((h.canonical g hg).divides he).base, hne]

end Formulae.Symbolic
