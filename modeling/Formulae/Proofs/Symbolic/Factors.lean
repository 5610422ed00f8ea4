import Formulae.Proofs.Symbolic.Canonical

namespace Formulae.Symbolic
set_option autoImplicit true

variable {xs fs gs hs : List Symbolic}

/-- Canonical factors that may stand in a product behind its coefficient. -/
structure AreFactors (fs : List Symbolic) : Prop where
  canonical : ∀ f ∈ fs, Canonical f
  number : ∀ f ∈ fs, f.isNumber = false
  product : ∀ f ∈ fs, f.isProduct = false
  bases : fs.Pairwise fun x y => (x.base == y.base) = false

namespace Undistributed

theorem one (fs : List Symbolic) : Undistributed 1 fs := .inl one_beq_one

theorem nil (c : Float) : Undistributed c [] := .inr (by simp)

/-- A sum is not what is divided by. -/
theorem of_filter (h : Undistributed c (fs.filter fun f => f.divisor?.isNone)) :
    Undistributed c fs := by
  refine h.imp_right fun hfirst f hf => ?_
  obtain ⟨gs, rfl⟩ := List.head?_eq_some_iff.1 hf
  cases f with
  | sum ts => exact hfirst _ rfl
  | _ => rfl

theorem of_append (h : Undistributed c (gs ++ hs)) : Undistributed c gs := by
  cases gs with
  | nil => exact nil c
  | cons g gs => exact h

end Undistributed

theorem withCoefficient_single {ps : List Symbolic} (hps : ps ≠ [])
    (h : withCoefficient c ps = [x]) : (c == 1) = true ∧ ps = [x] := by
  have hperm := sorted_perm ps
  unfold withCoefficient at h
  split at h
  · rw [(List.cons.inj h).2] at hperm
    exact absurd (List.nil_perm.1 hperm) hps
  · next hone =>
    rw [h] at hperm
    exact ⟨by simpa [bne] using hone, List.perm_singleton.1 hperm.symm⟩

namespace AreFactors

theorem perm (h : AreFactors fs) (hperm : gs.Perm fs) : AreFactors gs where
  canonical f hf := h.canonical f (hperm.mem_iff.1 hf)
  number f hf := h.number f (hperm.mem_iff.1 hf)
  product f hf := h.product f (hperm.mem_iff.1 hf)
  bases := (List.Perm.pairwise_iff (fun {_ _} => beq_eq_false_symm) hperm).2 h.bases

theorem sublist (h : AreFactors fs) (hsub : gs.Sublist fs) : AreFactors gs where
  canonical f hf := h.canonical f (hsub.subset hf)
  number f hf := h.number f (hsub.subset hf)
  product f hf := h.product f (hsub.subset hf)
  bases := h.bases.sublist hsub

theorem nil : AreFactors [] := ⟨by simp, by simp, by simp, .nil⟩

theorem nodup_key (h : AreFactors fs) : (fs.map key).Nodup := by
  refine Canonical.nodup_key h.canonical (h.bases.imp fun hne => ?_)
  exact Bool.eq_false_iff.2 fun heq => Bool.eq_false_iff.1 hne (beq_base heq)

theorem any_isProduct (h : AreFactors fs) : fs.any isProduct = false :=
  List.any_eq_false.2 fun f hf => Bool.eq_false_iff.1 (h.product f hf)

theorem productStep_perm (h : AreFactors fs) (hperm : gs.Perm fs) :
    productStep c gs = productStep c fs := by
  have hgs := (h.perm hperm).any_isProduct
  have hfs := h.any_isProduct
  match fs with
  | [] => rw [List.perm_nil.1 hperm]
  | [f] => rw [List.perm_singleton.1 hperm]
  | f :: f' :: fs =>
    have hlen : 2 ≤ (f :: f' :: fs).length := by simp
    rw [productStep_two hgs (hlen.trans_eq hperm.length_eq.symm), productStep_two hfs hlen,
      productOf, productOf, sorted_congr hperm h.nodup_key]

/-- A product is the product of its factors with its coefficient, whatever the order and
grouping. -/
theorem mul_eq (h : AreFactors fs) (hperm : (others (factorsOfList xs)).Perm fs)
    (hzero : (coefficient xs == 0) = false) : mul xs = productStep (coefficient xs) fs := by
  have hfactors := h.perm hperm
  have hreverse : (others (factorsOfList xs).reverse).Perm fs :=
    ((List.reverse_perm _).filter _).trans hperm
  have hmul := mul_of_fixed hfactors.bases (fun f hf => ?_) hzero
  · rw [hmul, h.productStep_perm hreverse]
  · have hf := hperm.mem_iff.1 hf
    exact (h.canonical f hf).raised_eq (h.number f hf) (h.product f hf)

theorem productStep_cases (h : AreFactors fs) (hd : Undistributed c fs) :
    fs = [] ∧ productStep c fs = .number c ∨
      (∃ f, fs = [f] ∧ (c == 1) = true ∧ productStep c fs = f) ∨
      2 ≤ (withCoefficient c fs).length ∧ productStep c fs = .product (withCoefficient c fs) := by
  unfold productStep
  rw [h.any_isProduct, if_neg Bool.false_ne_true]
  split
  · exact .inl ⟨rfl, rfl⟩
  · next ts =>
    have hone : (c == 1) = true := hd.resolve_right fun hfirst => by cases hfirst _ rfl
    refine .inr (.inl ⟨_, rfl, hone, ?_⟩)
    rw [bne, hone]
    rfl
  · next hne _ =>
    rcases productOf_cases c hne with ⟨x, hx, hproduct⟩ | hproduct
    · obtain ⟨hone, hfs⟩ := withCoefficient_single hne hx
      exact .inr (.inl ⟨x, hfs, hone, hproduct⟩)
    · exact .inr (.inr hproduct)

/-- The factors of a product are those that it is put together of, and its coefficient. -/
theorem factors_productStep (h : AreFactors fs) (hd : Undistributed c fs) :
    (others (productStep c fs).factors).Perm fs ∧
      ∀ k, foldNumbers (· * ·) k (productStep c fs).factors.reverse = k * c := by
  rcases h.productStep_cases hd with ⟨rfl, hstep⟩ | ⟨f, rfl, hone, hstep⟩ | ⟨-, hstep⟩
  · rw [hstep]
    exact ⟨.refl _, fun k => rfl⟩
  · have hf := h.number f List.mem_cons_self
    rw [hstep, factors_eq_self (h.product f List.mem_cons_self), List.reverse_singleton,
      others_eq_self (List.forall_mem_singleton.2 hf)]
    refine ⟨.refl _, fun k => ?_⟩
    rw [foldNumbers_of_others (List.forall_mem_singleton.2 hf), Number.eq_one_of_beq hone,
      Number.times_one]
  · have hproducts : ∀ f ∈ withCoefficient c fs, f.isProduct = false :=
      forall_mem_withCoefficient rfl h.product
    have hsorted : ∀ f ∈ (sorted fs).reverse, f.isNumber = false :=
      fun f hf => h.number f (mem_sorted.1 (List.mem_reverse.1 hf))
    rw [hstep, factors, factorsOfList_eq_self hproducts, others_withCoefficient h.number]
    refine ⟨sorted_perm fs, fun k => ?_⟩
    unfold withCoefficient
    split
    · rw [List.reverse_cons, foldNumbers_append_of_others hsorted]
      rfl
    · next hone =>
      have hc : c = 1 := Number.eq_one_of_beq (by simpa [bne] using hone)
      rw [foldNumbers_of_others hsorted, hc, Number.times_one]

/-- Two products are multiplied by putting together all their factors. -/
theorem mul_productStep (h : AreFactors (gs ++ hs)) (hg : Undistributed c gs)
    (hh : Undistributed k hs) (hzero : (k * c == 0) = false) :
    mul [productStep c gs, productStep k hs] = productStep (k * c) (gs ++ hs) := by
  obtain ⟨hperm, hc⟩ := (h.sublist (List.sublist_append_left gs hs)).factors_productStep hg
  obtain ⟨hperm', hk⟩ := (h.sublist (List.sublist_append_right gs hs)).factors_productStep hh
  have hfactors : factorsOfList [productStep c gs, productStep k hs] =
      (productStep c gs).factors ++ (productStep k hs).factors := by
    simp only [factorsOfList, List.append_nil]
  have hcoefficient : coefficient [productStep c gs, productStep k hs] = k * c := by
    rw [coefficient, hfactors, List.reverse_append, foldNumbers_append, hk, hc, Number.one_times]
  have hothers : (others (factorsOfList [productStep c gs, productStep k hs])).Perm (gs ++ hs) := by
    rw [hfactors, others, List.filter_append]
    exact hperm.append hperm'
  rw [h.mul_eq hothers (by rw [hcoefficient, hzero]), hcoefficient]

/-- The negation of a product has the opposite coefficient. -/
theorem neg_productStep (h : AreFactors fs) (hd : Undistributed c fs) (hzero : (c == 0) = false) :
    neg (productStep c fs) = productStep (-c) fs := by
  have hc : c * -1 = -c := (Number.times_comm c (-1)).trans (Number.neg_one_times c)
  have hmul := @mul_productStep [] fs (-1) c h (.nil _) hd (by rw [hc, Number.neg_beq_zero, hzero])
  rwa [hc] at hmul

theorem productStep_one {f : Symbolic} (h : AreFactors [f]) : productStep 1 [f] = f := by
  rcases h.productStep_cases (.one [f]) with ⟨hnil, -⟩ | ⟨_, hf, -, hstep⟩ | ⟨hlen, -⟩
  · cases hnil
  · rw [hstep, (List.cons.inj hf).1]
  · rw [withCoefficient_one, (sorted_perm [f]).length_eq] at hlen
    simp at hlen

/-- Factors can be multiplied with a product one by one. -/
theorem foldl_mul (h : AreFactors (gs ++ hs)) (hd : Undistributed c (gs ++ hs))
    (hzero : (c == 0) = false) :
    hs.foldl (fun s f => mul [s, f]) (productStep c gs) = productStep c (gs ++ hs) := by
  induction hs generalizing gs with
  | nil => rw [List.foldl_nil, List.append_nil]
  | cons f hs ih =>
    have hf : productStep 1 [f] = f :=
      productStep_one (h.sublist ((List.singleton_sublist.2 List.mem_cons_self).trans
        (List.sublist_append_right gs (f :: hs))))
    rw [List.append_cons] at h hd ⊢
    have hmul := mul_productStep (h.sublist (List.sublist_append_left (gs ++ [f]) hs))
      hd.of_append.of_append (.one [f]) (by rw [Number.one_times, hzero])
    rw [hf, Number.one_times] at hmul
    rw [List.foldl_cons, hmul, ih h hd]

theorem sorted_eq_self (h : AreFactors fs) (hordered : Ordered fs) : sorted fs = fs :=
  sorted_of_perm (.refl fs) hordered h.nodup_key

end AreFactors

theorem coefficientOf_of_others (h : ∀ x ∈ xs, x.isNumber = false) :
    coefficientOf xs = (1, xs) := by
  unfold coefficientOf
  split
  · next c ys => cases h (number c) List.mem_cons_self
  · rfl

theorem coefficientOf_withCoefficient {ps : List Symbolic} (h : ∀ p ∈ ps, p.isNumber = false) :
    coefficientOf (withCoefficient c ps) = (c, sorted ps) := by
  unfold withCoefficient
  split
  · rfl
  · next hone =>
    have hc : c = 1 := Number.eq_one_of_beq (by simpa [bne] using hone)
    rw [coefficientOf_of_others fun p hp => h p (mem_sorted.1 hp), hc]

/-- A product is put together of its coefficient and the other factors. -/
theorem Canonical.product_eq (h : Canonical (product xs)) :
    Canonical (.number (coefficientOf xs).1) ∧ ((coefficientOf xs).1 == 0) = false ∧
      AreFactors (coefficientOf xs).2 ∧ Ordered (coefficientOf xs).2 ∧
      productStep (coefficientOf xs).1 (coefficientOf xs).2 = product xs := by
  obtain ⟨hlen, hproducts, hnumbers, hone⟩ := h.neat.shape
  obtain ⟨hordered, hbases, hzero, -⟩ := h.neat.gathered
  cases xs with
  | nil => simp at hlen
  | cons x rest =>
    cases hnumber : x.isNumber with
    | true =>
      cases x with
      | number c =>
        have hrest := isRest_of_tidy h.neat.everywhere.node
        have hfactors : AreFactors rest := ⟨fun f hf => h.operand f (List.mem_cons_of_mem _ hf),
          hrest.number, hrest.product, hrest.bases⟩
        have hstep :=
          productStep_of_rest hfactors.any_isProduct hrest.ne_nil hrest.ne_sum (hone _ rfl)
        rw [hfactors.sorted_eq_self hrest.ordered] at hstep
        exact ⟨h.operand _ List.mem_cons_self, hzero _ List.mem_cons_self, hfactors, hrest.ordered,
          hstep⟩
      | _ => cases hnumber
    | false =>
      have hall : ∀ y ∈ x :: rest, y.isNumber = false := List.forall_mem_cons.2 ⟨hnumber, hnumbers⟩
      rw [others_eq_self hall] at hbases
      have hfactors : AreFactors (x :: rest) := ⟨h.operand, hall, hproducts, hbases⟩
      rw [coefficientOf_of_others hall]
      refine ⟨.one, one_beq_zero, hfactors, hordered, ?_⟩
      rcases hfactors.productStep_cases (.one _) with ⟨hnil, -⟩ | ⟨f, hf, -⟩ | ⟨-, hstep⟩
      · cases hnil
      · rw [hf] at hlen
        simp at hlen
      · rw [hstep, withCoefficient_one, hfactors.sorted_eq_self hordered]

namespace AreFactors

/-- A product of canonical factors is canonical, if its coefficient cannot meet a sum when it is
written. -/
theorem canonical_productStep (h : AreFactors fs) (hc : Canonical (.number c))
    (hzero : (c == 0) = false) (hordered : Ordered fs)
    (hd : Undistributed c (fs.filter fun f => f.divisor?.isNone)) :
    Canonical (productStep c fs) := by
  rcases h.productStep_cases hd.of_filter with ⟨-, hstep⟩ | ⟨f, rfl, -, hstep⟩ | ⟨hlen, hstep⟩
  · rw [hstep]
    exact hc
  · rw [hstep]
    exact h.canonical f List.mem_cons_self
  · have hoperands := forall_mem_withCoefficient hc h.canonical
    have hsum : ∀ ts, fs ≠ [.sum ts] := by
      rintro ts rfl
      rcases hd.of_filter with hone | hfirst
      · rw [Number.eq_one_of_beq hone, withCoefficient_one, (sorted_perm _).length_eq] at hlen
        simp at hlen
      · cases hfirst _ rfl
    rw [hstep]
    refine .node ⟨shape_withCoefficient h.number h.any_isProduct hlen,
      gathered_withCoefficient h.number hzero h.bases hsum⟩
      (.product fun x hx => (hoperands x hx).neat.formed) trivial ?_ hoperands
    rw [Settled, factorsAbove, coefficientOf_withCoefficient h.number, h.sorted_eq_self hordered]
    exact hd

end AreFactors

/-- The coefficient of what is subtracted is negative. -/
theorem Canonical.eq_of_isSubtracted {y : Symbolic} (h : Canonical y)
    (hy : y.isSubtracted = true) : ∃ c fs, productStep c fs = y ∧ c < 0 ∧ Canonical (.number c) ∧
      AreFactors fs ∧ Ordered fs ∧ Undistributed c (fs.filter fun f => f.divisor?.isNone) := by
  have hnegative {c} (hc : (Symbolic.number c).isNegative = true) : c < 0 := by
    simpa [isNegative, number?] using hc
  cases y with
  | number c => exact ⟨c, [], rfl, hnegative hy, h, .nil, .nil, .nil c⟩
  | product xs =>
    obtain ⟨-, -, hfactors, hordered, hstep⟩ := h.product_eq
    cases xs with
    | nil => cases hy
    | cons x rest =>
      cases x with
      | number c =>
        exact ⟨c, rest, hstep, hnegative hy, h.operand _ List.mem_cons_self, hfactors, hordered,
          h.settled.node⟩
      | _ => cases hy
  | _ => cases hy

/-- The negation of what is subtracted is canonical, and its own negation is what is subtracted. -/
theorem Canonical.subtracted {y : Symbolic} (h : Canonical y) (hy : y.isSubtracted = true) :
    Canonical (neg y) ∧ neg (neg y) = y := by
  obtain ⟨c, fs, rfl, hneg, hc, hfs, hordered, hd⟩ := h.eq_of_isSubtracted hy
  have hzero : (c == 0) = false := Number.beq_zero_of_neg hneg
  have hzero' : (-c == 0) = false := (Number.neg_beq_zero c).trans hzero
  have hfirst : Undistributed (-c) (fs.filter fun f => f.divisor?.isNone) := by
    refine .inr (hd.resolve_left fun hone => ?_)
    rw [Number.eq_one_of_beq hone] at hneg
    exact absurd hneg (by decide +kernel)
  have hc' : Canonical (.number (-c)) :=
    .number ((Number.isFinite_neg c).trans hc.settled.node.1) (Number.ne_neg_zero hzero')
  rw [hfs.neg_productStep hd.of_filter hzero]
  refine ⟨hfs.canonical_productStep hc' hzero' hordered hfirst, ?_⟩
  rw [hfs.neg_productStep hfirst.of_filter hzero', Number.neg_neg]

theorem Canonical.signless {y : Symbolic} (h : Canonical y) : Canonical y.signless := by
  unfold Symbolic.signless
  split
  · next hy => exact (h.subtracted hy).1
  · exact h

end Formulae.Symbolic
