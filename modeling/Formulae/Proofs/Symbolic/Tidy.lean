import Formulae.Proofs.Symbolic.Gathered

namespace Formulae.Symbolic
set_option autoImplicit true

theorem Tidy.rest {xs : List Symbolic} (hne : ∀ x, xs ≠ [x])
    (h : Tidy (.product (.number c :: xs))) : Tidy (.product xs) := by
  obtain ⟨hshape, hordered, hbases, hzero, -⟩ := h
  refine ⟨hshape.rest hne, (List.pairwise_cons.1 hordered).2, hbases,
    fun x hx => hzero x (List.mem_cons_of_mem _ hx), ?_⟩
  rintro k ts rfl
  cases hshape.2.2.1 (.number k) List.mem_cons_self

theorem passed_tidy : Passed (Everywhere Tidy) :=
  passed_everywhere (fun _ => ⟨trivial, trivial⟩) Tidy.rest

theorem passed_neat : Passed Neat where
  number := ⟨passed_tidy.number, .number⟩
  sum h := h.operand
  product h := h.operand
  power h := by simpa [operands] using h.operand
  rest hne h := ⟨passed_tidy.rest hne h.everywhere, .product fun x hx =>
    h.formed.operand x (List.mem_cons_of_mem _ hx)⟩

def isPower : Symbolic → Bool
  | power _ _ => true
  | _ => false

/-- An exponent other than zero and one goes further into the base if it is whole. -/
theorem pow_of_proper {b e : Symbolic} (hb : b.isNumber = false) (hzero : e.isValue 0 = false)
    (hone : e.isValue 1 = false) : pow b e = if e.isWhole then opened e b else power b e := by
  rw [pow_eq, powerStep, hzero, hone, isValue_of_isNumber hb, properPower]
  · rfl
  · rintro x n rfl
    cases hb

/-- A power that is neither the number one nor the base itself has a proper exponent. -/
theorem pow_plain_or (b e : Symbolic) :
    pow b e = number 1 ∨ pow b e = b ∨ e.isValue 0 = false ∧ e.isValue 1 = false := by
  cases hplain : isPlainPower b e with
  | true =>
    rw [pow_eq]
    exact (Call.powerStep_of_plain hplain).imp_right .inl
  | false =>
    simp only [isPlainPower, Bool.or_eq_false_iff] at hplain
    exact .inr (.inr hplain.1)

theorem base_eq_self {x : Symbolic} (h : x.isPower = false) : x.base = x := by
  cases x with
  | power => cases h
  | _ => rfl

/-- What is left of a term without its coefficient. -/
structure IsTerm (r : Symbolic) : Prop where
  number : r.isNumber = false
  sum : r.isSum = false
  free : ∀ c xs, r ≠ .product (.number c :: xs)

theorem isTerm_splitCoefficient {x : Symbolic} (hx : Tidy x) (hnumber : x.isNumber = false)
    (hsum : x.isSum = false) : IsTerm x.term := by
  unfold term splitCoefficient
  split
  · next c y =>
    obtain ⟨⟨-, hproducts, hnumbers, -⟩, -, -, -, hsum⟩ := hx
    have hy : y ∈ [Symbolic.number c, y] := List.mem_cons_of_mem _ List.mem_cons_self
    refine ⟨hnumbers y List.mem_cons_self, Bool.eq_false_iff.2 fun hy => ?_, ?_⟩
    · obtain ⟨ts, rfl⟩ := exists_of_isSum hy
      exact hsum c ts rfl
    · rintro d ys rfl
      cases hproducts _ hy
  · next c ys hne =>
    obtain ⟨⟨-, -, hnumbers, -⟩, -⟩ := hx
    refine ⟨rfl, rfl, ?_⟩
    rintro d zs h
    cases h
    cases hnumbers (.number d) List.mem_cons_self
  · next hone hmore =>
    refine ⟨hnumber, hsum, ?_⟩
    rintro d zs rfl
    exact hmore d zs rfl

theorem isSum_of_mem_terms {x t : Symbolic} (ht : t ∈ x.terms) : t.isSum = false := by
  induction x using Symbolic.induct with
  | sum xs ih =>
    rw [terms, termsOfList_eq] at ht
    obtain ⟨x, hx, ht⟩ := List.mem_flatMap.1 ht
    exact ih x hx ht
  | _ => exact List.mem_singleton.1 ht ▸ rfl

theorem isTerm_of_mem_likeTerms (hxs : ∀ x ∈ xs, Neat x) (ht : t ∈ likeTerms xs) :
    IsTerm t.1 := by
  refine collect_forall (Q := fun t => IsTerm t.1) ?_ ?_ t (List.mem_filter.1 ht).1
  · exact fun hr _ => hr
  refine List.forall_mem_map.2 fun x hx => ?_
  have hmem := List.mem_reverse.1 (mem_of_mem_others hx)
  have hneat := passed_neat.termsOfList hxs x hmem
  rw [termsOfList_eq] at hmem
  obtain ⟨y, -, hy⟩ := List.mem_flatMap.1 hmem
  exact isTerm_splitCoefficient hneat.everywhere.node (isNumber_of_mem_others hx)
    (isSum_of_mem_terms hy)

theorem IsTerm.isRest_factors {r : Symbolic} (h : IsTerm r) (hr : Tidy r) : IsRest r.factors := by
  cases hproduct : r.isProduct with
  | false =>
    rw [factors_eq_self hproduct]
    refine ⟨List.cons_ne_nil _ _, ?_, List.forall_mem_singleton.2 h.number,
      List.forall_mem_singleton.2 hproduct, List.pairwise_singleton _ _,
      List.pairwise_singleton _ _⟩
    rintro ts hts
    cases hts
    cases h.sum
  | true =>
    cases r with
    | product xs =>
      obtain ⟨⟨hlen, hproducts, hnumbers, -⟩, hordered, hbases, -⟩ := hr
      have hnumbers : ∀ x ∈ xs, x.isNumber = false := by
        cases xs with
        | nil => simp
        | cons x xs =>
          refine List.forall_mem_cons.2 ⟨Bool.eq_false_iff.2 fun hx => ?_, hnumbers⟩
          cases x with
          | number c => exact h.free c xs rfl
          | _ => cases hx
      rw [others_eq_self hnumbers] at hbases
      rw [factors, factorsOfList_eq_self hproducts]
      refine ⟨?_, ?_, hnumbers, hproducts, hordered, hbases⟩
      · rintro rfl
        simp at hlen
      · rintro ts rfl
        simp at hlen
    | _ => cases hproduct

theorem IsTerm.term_eq (h : IsTerm r) : r.term = r := by
  unfold term splitCoefficient
  split
  · next c x => exact absurd rfl (h.free c [x])
  · next c xs _ => exact absurd rfl (h.free c xs)
  · rfl

/-- The same tree, or one with something in it that is not a number. -/
def Alike (x y : Symbolic) : Prop := y = x ∨ Blurred y

theorem Alike.beq_eq_false {x x' y y' : Symbolic} (hx : Alike x x') (hy : Alike y y')
    (h : (x == y) = false) : (x' == y') = false := by
  rcases hx with rfl | hx
  · rcases hy with rfl | hy
    · exact h
    · exact hy.beq_right
  · exact hx.beq_left

theorem blurred_term (hq : q ∈ qs) (h : Blurred q) : Blurred (product (number c :: qs)).term := by
  match qs, hq with
  | [x], hq => exact List.mem_singleton.1 hq ▸ h
  | x :: y :: zs, hq => exact beqList_blurred hq h

theorem term_product_factors {r : Symbolic} (hr : Shape r) :
    (product (number c :: r.factors)).term = r := by
  cases r with
  | product xs =>
    obtain ⟨hlen, hproducts, -⟩ := hr
    rw [factors, factorsOfList_eq_self hproducts]
    cases xs with
    | nil => simp at hlen
    | cons x ys =>
      cases ys with
      | nil => simp at hlen
      | cons y zs => rfl
  | _ => rfl

/-- A term is a term again once it has been given its coefficient. -/
theorem IsTerm.scaled {r : Symbolic} (h : IsTerm r) (hr : r.Neat) (hzero : (c == 0) = false) :
    (scaled (r, c)).isNumber = false ∧ (scaled (r, c)).isSum = false ∧
      Alike r (scaled (r, c)).term := by
  rw [Symbolic.scaled]
  split
  · exact ⟨h.number, h.sum, .inl h.term_eq⟩
  · next hone =>
    have hrest := h.isRest_factors hr.everywhere.node
    have hfactors := passed_neat.factors hr
    obtain ⟨qs, hmul, hqs⟩ := mul_number_kept hrest (fun f hf => (hfactors f hf).formed)
      (fun f hf => (hfactors f hf).stays.factor (hrest.number f hf) (hrest.product f hf)) rfl hzero
      (Bool.eq_false_iff.2 hone)
    rw [hmul]
    refine ⟨rfl, rfl, ?_⟩
    rcases hqs with rfl | ⟨-, q, hq, hblurred⟩
    · exact .inl (term_product_factors hr.shape)
    · exact .inr (blurred_term hq hblurred)

theorem others_withConstant {ts : List Symbolic} (h : ∀ t ∈ ts, t.isNumber = false) :
    others (withConstant k ts) = ts := by
  unfold withConstant
  split
  · rw [others, List.filter_append]
    exact (congrArg (· ++ []) (others_eq_self h)).trans (List.append_nil _)
  · exact others_eq_self h

theorem numbers_withConstant {ts : List Symbolic} (h : ∀ t ∈ ts, t.isNumber = false) :
    ((withConstant k ts).filter isNumber).length ≤ 1 := by
  have hnone : ts.filter isNumber = [] := by simpa using h
  unfold withConstant
  split
  · rw [List.filter_append, hnone]
    exact List.length_filter_le _ _
  · rw [hnone]
    exact Nat.zero_le 1

theorem not_zero_of_mem_withConstant {ts : List Symbolic} (h : ∀ t ∈ ts, t.isNumber = false)
    (hlen : 2 ≤ (withConstant k ts).length) : ∀ x ∈ withConstant k ts, x.isValue 0 = false := by
  have hzero : ∀ t ∈ ts, t.isValue 0 = false := fun t ht => isValue_of_isNumber (h t ht) 0
  unfold withConstant at hlen ⊢
  split
  · next hk =>
    rw [if_pos hk] at hlen
    refine List.forall_mem_append.2 ⟨hzero, List.forall_mem_singleton.2 ?_⟩
    rcases Bool.or_eq_true_iff.1 hk with hne | hempty
    · simpa [isValue, number?, bne] using hne
    · rw [List.isEmpty_iff.1 hempty] at hlen
      simp at hlen
  · exact hzero

theorem pairwise_others_sorted {f : Symbolic → Symbolic}
    (h : (others xs).Pairwise fun x y => (f x == f y) = false) :
    (others (sorted xs)).Pairwise fun x y => (f x == f y) = false :=
  (List.Perm.pairwise_iff (fun {_ _} => beq_eq_false_symm) ((sorted_perm xs).filter _)).2 h

theorem gathered_sum (hxs : ∀ x ∈ xs, Neat x)
    (hlen : 2 ≤ (withConstant (constant xs) ((likeTerms xs).map scaled)).length) :
    Gathered (sum (sorted (withConstant (constant xs) ((likeTerms xs).map scaled)))) := by
  have hscaled t (ht : t ∈ likeTerms xs) := (isTerm_of_mem_likeTerms hxs ht).scaled
    (passed_neat.likeTerms hxs t ht) (c := t.2) (by simpa [bne] using (List.mem_filter.1 ht).2)
  have hnumbers : ∀ x ∈ (likeTerms xs).map scaled, x.isNumber = false :=
    List.forall_mem_map.2 fun t ht => (hscaled t ht).1
  have hdistinct : Distinct (likeTerms xs) := (distinct_collect _ _).filter _
  have hterms : ((likeTerms xs).map scaled).Pairwise fun x y => (x.term == y.term) = false := by
    rw [List.pairwise_map]
    exact hdistinct.imp_of_mem fun ht hu hne =>
      (hscaled _ ht).2.2.beq_eq_false (hscaled _ hu).2.2 hne
  refine ⟨sorted_ordered _, ?_, ?_, fun x hx => ⟨?_, ?_⟩⟩
  · apply pairwise_others_sorted
    rw [others_withConstant hnumbers]
    exact hterms
  · rw [((sorted_perm _).filter _).length_eq]
    exact numbers_withConstant hnumbers
  · refine forall_mem_withConstant (P := fun x => x.isSum = false) rfl ?_ x (mem_sorted.1 hx)
    exact List.forall_mem_map.2 fun t ht => (hscaled t ht).2.1
  · exact not_zero_of_mem_withConstant hnumbers hlen x (mem_sorted.1 hx)

theorem others_withCoefficient {ps : List Symbolic} (h : ∀ p ∈ ps, p.isNumber = false) :
    others (withCoefficient k ps) = sorted ps := by
  have hsorted : ∀ p ∈ sorted ps, p.isNumber = false := fun p hp => h p (mem_sorted.1 hp)
  unfold withCoefficient
  split
  · exact others_eq_self hsorted
  · exact others_eq_self hsorted

/-- A number stands before what is none. -/
theorem ordered_withCoefficient {ps : List Symbolic} (h : ∀ p ∈ ps, p.isNumber = false) :
    Ordered (withCoefficient k ps) := by
  unfold withCoefficient
  split
  · refine List.pairwise_cons.2 ⟨fun p hp => ?_, sorted_ordered ps⟩
    have hrank : p.rank ≠ 0 := by
      have hnumber := h p (mem_sorted.1 hp)
      rw [isNumber_eq] at hnumber
      simpa using hnumber
    exact Keyed.ordered_iff.2 (.inl (Nat.pos_of_ne_zero hrank))
  · exact sorted_ordered ps

theorem productStep_two {ps : List Symbolic} (hproducts : ps.any isProduct = false)
    (hlen : 2 ≤ ps.length) : productStep c ps = productOf c ps := by
  match ps with
  | [] | [p] => simp at hlen
  | _ :: _ :: _ => simp only [productStep, hproducts, if_neg Bool.false_ne_true]

theorem withCoefficient_one (ps : List Symbolic) : withCoefficient 1 ps = sorted ps := by
  rw [withCoefficient, bne, one_beq_one]
  rfl

/-- Factors that are what their powers become are put together as they are. -/
theorem mul_of_fixed
    (hbases : (others (factorsOfList xs)).Pairwise fun x y => (x.base == y.base) = false)
    (hraised : ∀ f ∈ others (factorsOfList xs), raised f.splitPower = f)
    (hzero : (coefficient xs == 0) = false) :
    mul xs = productStep (coefficient xs) (others (factorsOfList xs).reverse) := by
  have hpowers : powers xs = others (factorsOfList xs).reverse := by
    rw [powers, likeBases_of_distinct hbases, List.map_map]
    refine (List.map_congr_left fun f hf => ?_).trans (List.map_id _)
    exact hraised f (((List.reverse_perm _).filter _).mem_iff.1 hf)
  have hnumbers : ∀ p ∈ powers xs, p.isNumber = false := by
    rw [hpowers]
    exact fun p hp => isNumber_of_mem_others hp
  have hfull : fullCoefficient xs = coefficient xs := by
    rw [fullCoefficient, foldNumbers_of_others hnumbers]
  rw [mul_eq, hzero, if_neg Bool.false_ne_true, hfull, others_eq_self hnumbers, hpowers]

theorem foldNumbers_ones (h : ∀ x ∈ xs, x.isNumber = true → x = number 1) (k : Float) :
    foldNumbers (· * ·) k xs = k := by
  induction xs with
  | nil => rfl
  | cons x xs ih =>
    rw [List.forall_mem_cons] at h
    obtain ⟨hx, hxs⟩ := h
    cases x with
    | number c =>
      cases hx rfl
      exact (congrArg (foldNumbers (· * ·) · xs) (Number.times_one k)).trans (ih hxs)
    | _ => exact ih hxs

/-- The base stays what it was, unless the power is one. -/
def KeepsBase (p : Symbolic × List Symbolic) : Prop :=
  raised p = number 1 ∨ (raised p).isNumber = false ∧ (raised p).base = p.1

theorem fullCoefficient_eq (h : ∀ p ∈ likeBases xs, KeepsBase p) :
    fullCoefficient xs = coefficient xs := by
  refine foldNumbers_ones (List.forall_mem_map.2 fun p hp hnumber => ?_) _
  rcases h p hp with hone | ⟨hnot, -⟩
  · exact hone
  · rw [hnot] at hnumber
    cases hnumber

theorem pairwise_base_powers (h : ∀ p ∈ likeBases xs, KeepsBase p) :
    (others (powers xs)).Pairwise fun x y => (x.base == y.base) = false := by
  have hdistinct : Distinct (likeBases xs) := distinct_collect _ _
  have hbase p (hp : p ∈ likeBases xs) (hnot : (!(raised p).isNumber) = true) :
      (raised p).base = p.1 := by
    rcases h p hp with hone | ⟨-, hbase⟩
    · rw [hone] at hnot
      cases hnot
    · exact hbase
  rw [others, powers, List.pairwise_filter, List.pairwise_map]
  refine hdistinct.imp_of_mem fun {p q} hp hq hne hpn hqn => ?_
  rw [hbase p hp hpn, hbase q hq hqn, hne]

theorem gathered_withCoefficient {ps : List Symbolic} (hps : ∀ p ∈ ps, p.isNumber = false)
    (hk : (k == 0) = false) (hbases : ps.Pairwise fun x y => (x.base == y.base) = false)
    (hsum : ∀ ts, ps ≠ [.sum ts]) : Gathered (product (withCoefficient k ps)) := by
  refine ⟨ordered_withCoefficient hps, ?_, ?_, fun c ts hts => ?_⟩
  · rw [others_withCoefficient hps]
    exact (List.Perm.pairwise_iff (fun {_ _} => beq_eq_false_symm) (sorted_perm _)).2 hbases
  · refine forall_mem_withCoefficient (P := fun x => x.isValue 0 = false) hk fun p hp => ?_
    exact isValue_of_isNumber (hps p hp) 0
  · have hone := congrArg others hts
    rw [others_withCoefficient hps] at hone
    have hperm := sorted_perm ps
    rw [hone] at hperm
    exact hsum ts (List.perm_singleton.1 hperm.symm)

/-- Nothing is left to be collected in a node that is put together, if the powers of a product have
the bases that were raised. -/
theorem Call.Forms.gathered {c : Call} (h : c.Forms s) (hc : ∀ x ∈ c.operands, Neat x)
    (hbases : ∀ xs, c = mul xs → (others (powers xs)).any isProduct = false →
      ∀ p ∈ likeBases xs, KeepsBase p) : Gathered s := by
  cases h with
  | sum hlen => exact gathered_sum hc hlen
  | @product xs hzero hproducts hsum hlen =>
    have hbases := hbases xs rfl hproducts
    have hfull : (fullCoefficient xs == 0) = false := by rw [fullCoefficient_eq hbases, hzero]
    exact gathered_withCoefficient (fun p hp => isNumber_of_mem_others hp) hfull
      (pairwise_base_powers hbases) hsum
  | power _ hpower => exact (pow_eq _ _).trans hpower

theorem Call.Forms.formed {V F : String → Prop} {c : Call} (h : c.Forms s)
    (hs : ∀ x ∈ s.operands, x.Formed V F) : s.Formed V F := by
  cases h with
  | sum hlen =>
    obtain ⟨x, hx⟩ := List.exists_mem_of_length_pos (Nat.zero_lt_two.trans_le hlen)
    exact .sum (List.ne_nil_of_mem (mem_sorted.2 hx)) hs
  | product => exact .product hs
  | @power b e =>
    have hs : b.Formed V F ∧ e.Formed V F := by simpa [Symbolic.operands] using hs
    exact .power hs.1 hs.2

end Formulae.Symbolic
