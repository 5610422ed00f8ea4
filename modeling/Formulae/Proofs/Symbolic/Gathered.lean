import Formulae.Proofs.Number.Neutral
import Formulae.Proofs.Symbolic.Equality
import Formulae.Proofs.Symbolic.Reading
import Formulae.Proofs.Symbolic.Shape

namespace Formulae.Symbolic
set_option autoImplicit true

def isSum : Symbolic → Bool
  | sum _ => true
  | _ => false

/-- What no operation leaves to be collected, and the order in which it leaves the operands. -/
def Gathered : Symbolic → Prop
  | sum xs => Ordered xs ∧ (others xs).Pairwise (fun x y => (x.term == y.term) = false) ∧
      (xs.filter isNumber).length ≤ 1 ∧ ∀ x ∈ xs, x.isSum = false ∧ x.isValue 0 = false
  | product xs => Ordered xs ∧ (others xs).Pairwise (fun x y => (x.base == y.base) = false) ∧
      (∀ x ∈ xs, x.isValue 0 = false) ∧ ∀ c ts, xs ≠ [number c, sum ts]
  | power b e => pow b e = power b e
  | _ => True

/-- The same tree, or one of the same kind if there is something in it that is not a number. -/
def Kept (x y : Symbolic) : Prop := y = x ∨ Blurred x ∧ Blurred y ∧ y.rank = x.rank

namespace Kept

theorem refl (x : Symbolic) : Kept x x := .inl rfl

theorem blurred {x y : Symbolic} (h : Kept x y) (hx : Blurred x) : Blurred y := by
  rcases h with rfl | ⟨-, hy, -⟩
  · exact hx
  · exact hy

theorem rank_eq {x y : Symbolic} (h : Kept x y) : y.rank = x.rank := by
  rcases h with rfl | ⟨-, -, hrank⟩
  · rfl
  · exact hrank

theorem eq_of_not_blurred {x y : Symbolic} (h : Kept x y) (hx : ¬Blurred x) : y = x := by
  rcases h with rfl | ⟨hblurred, -⟩
  · rfl
  · exact absurd hblurred hx

end Kept

theorem isNumber_eq (x : Symbolic) : x.isNumber = (x.rank == 0) := by
  cases x with
  | logical op => cases op <;> rfl
  | _ => rfl

theorem isSum_eq (x : Symbolic) : x.isSum = (x.rank == 6) := by
  cases x with
  | logical op => cases op <;> rfl
  | _ => rfl

theorem isProduct_eq (x : Symbolic) : x.isProduct = (x.rank == 5) := by
  cases x with
  | logical op => cases op <;> rfl
  | _ => rfl

theorem Kept.isNumber {x y : Symbolic} (h : Kept x y) : y.isNumber = x.isNumber := by
  rw [isNumber_eq, isNumber_eq, h.rank_eq]

theorem Kept.isSum {x y : Symbolic} (h : Kept x y) : y.isSum = x.isSum := by
  rw [isSum_eq, isSum_eq, h.rank_eq]

theorem Kept.isProduct {x y : Symbolic} (h : Kept x y) : y.isProduct = x.isProduct := by
  rw [isProduct_eq, isProduct_eq, h.rank_eq]

/-- Lists of operands that are the same, or hold something that is not a number. -/
def KeptAll (xs ys : List Symbolic) : Prop :=
  ys = xs ∨ (∃ x ∈ xs, Blurred x) ∧ ∃ y ∈ ys, Blurred y

theorem KeptAll.sum (h : KeptAll xs ys) : Kept (sum xs) (sum ys) := by
  rcases h with rfl | ⟨⟨x, hx, hblurred⟩, y, hy, hblurred'⟩
  · exact .refl _
  · exact .inr ⟨beqList_blurred hx hblurred, beqList_blurred hy hblurred', rfl⟩

theorem KeptAll.product (h : KeptAll xs ys) :
    Kept (product (number c :: xs)) (product (number c :: ys)) := by
  rcases h with rfl | ⟨⟨x, hx, hblurred⟩, y, hy, hblurred'⟩
  · exact .refl _
  · exact .inr ⟨beqList_blurred (List.mem_cons_of_mem _ hx) hblurred,
      beqList_blurred (List.mem_cons_of_mem _ hy) hblurred', rfl⟩

variable {xs ys fs : List Symbolic} {g : Symbolic → Symbolic}

/-- Different trees are told apart by the order of operands. -/
theorem nodup_key (hformed : ∀ x ∈ xs, x.Formed Unquoted Unquoted) (hclear : ∀ x ∈ xs, ¬Blurred x)
    (hxs : xs.Pairwise fun x y => (x == y) = false) : (xs.map key).Nodup := by
  rw [List.nodup_iff_pairwise_ne, List.pairwise_map]
  refine hxs.imp_of_mem fun {x y} hx hy hne hkey => Bool.eq_false_iff.1 hne ?_
  exact beq_of_constructorText_eq (hformed x hx) (hformed y hy) (congrArg Prod.snd hkey)
    (by simpa [Blurred] using hclear x hx)

/-- Operands that are in order and all different are sorted into this order again. -/
theorem keptAll_sorted (hordered : Ordered xs) (hformed : ∀ x ∈ xs, x.Formed Unquoted Unquoted)
    (hxs : xs.Pairwise fun x y => (x == y) = false) (hperm : ys.Perm xs)
    (hg : ∀ y ∈ ys, Kept y (g y)) : KeptAll xs (sorted (ys.map g)) := by
  by_cases hblurred : ∃ x ∈ xs, Blurred x
  · obtain ⟨x, hx, hblur⟩ := hblurred
    have hy := hperm.mem_iff.2 hx
    exact .inr ⟨⟨x, hx, hblur⟩, g x, mem_sorted.2 (List.mem_map_of_mem hy),
      (hg x hy).blurred hblur⟩
  · have hclear x (hx : x ∈ xs) : ¬Blurred x := fun hblur => hblurred ⟨x, hx, hblur⟩
    have hsame : ys.map g = ys := by
      refine (List.map_congr_left fun y hy => ?_).trans (List.map_id _)
      exact (hg y hy).eq_of_not_blurred (hclear y (hperm.mem_iff.1 hy))
    rw [hsame]
    exact .inl (sorted_of_perm hperm hordered (nodup_key hformed hclear hxs))

theorem foldNumbers_append {f : Float → Float → Float} (start : Float) (xs ys : List Symbolic) :
    foldNumbers f start (xs ++ ys) = foldNumbers f (foldNumbers f start xs) ys := by
  rw [foldNumbers, List.filterMap_append, List.foldl_append]
  rfl

theorem foldNumbers_append_of_others {f : Float → Float → Float}
    (h : ∀ x ∈ xs, x.isNumber = false) (start : Float) (ys : List Symbolic) :
    foldNumbers f start (xs ++ ys) = foldNumbers f start ys := by
  have hnone : xs.filterMap number? = [] := by
    rw [List.filterMap_eq_nil_iff]
    intro x hx
    simpa [isNumber] using h x hx
  rw [foldNumbers, List.filterMap_append, hnone, List.nil_append, foldNumbers]

theorem foldNumbers_of_others {f : Float → Float → Float} (h : ∀ x ∈ xs, x.isNumber = false)
    (start : Float) : foldNumbers f start xs = start := by
  rw [← List.append_nil xs, foldNumbers_append_of_others h]
  rfl

theorem others_eq_self (h : ∀ x ∈ xs, x.isNumber = false) : others xs = xs :=
  List.filter_eq_self.2 fun x hx => by rw [h x hx]; rfl

theorem factors_eq_self {x : Symbolic} (h : x.isProduct = false) : x.factors = [x] := by
  cases x with
  | product => cases h
  | _ => rfl

theorem terms_eq_self {x : Symbolic} (h : x.isSum = false) : x.terms = [x] := by
  cases x with
  | sum => cases h
  | _ => rfl

theorem factorsOfList_eq_self (h : ∀ x ∈ xs, x.isProduct = false) : factorsOfList xs = xs := by
  rw [factorsOfList_eq]
  induction xs with
  | nil => rfl
  | cons x xs ih =>
    rw [List.forall_mem_cons] at h
    rw [List.flatMap_cons, factors_eq_self h.1, ih h.2, List.singleton_append]

theorem termsOfList_eq_self (h : ∀ x ∈ xs, x.isSum = false) : termsOfList xs = xs := by
  rw [termsOfList_eq]
  induction xs with
  | nil => rfl
  | cons x xs ih =>
    rw [List.forall_mem_cons] at h
    rw [List.flatMap_cons, terms_eq_self h.1, ih h.2, List.singleton_append]

/-- What a product may hold behind its coefficient. -/
structure IsRest (fs : List Symbolic) : Prop where
  ne_nil : fs ≠ []
  ne_sum : ∀ ts, fs ≠ [sum ts]
  number : ∀ f ∈ fs, f.isNumber = false
  product : ∀ f ∈ fs, f.isProduct = false
  ordered : Ordered fs
  bases : fs.Pairwise fun x y => (x.base == y.base) = false

theorem IsRest.distinct (h : IsRest fs) : fs.Pairwise fun x y => (x == y) = false :=
  h.bases.imp fun hne => Bool.eq_false_iff.2 fun heq => Bool.eq_false_iff.1 hne (beq_base heq)

theorem productStep_of_rest {ps : List Symbolic} (hproducts : ps.any isProduct = false)
    (hne : ps ≠ []) (hsum : ∀ ts, ps ≠ [.sum ts]) (hone : (c == 1) = false) :
    productStep c ps = .product (.number c :: sorted ps) := by
  have hall : withCoefficient c ps = .number c :: sorted ps := by
    rw [withCoefficient, bne, hone]
    rfl
  have hsorted : sorted ps ≠ [] := fun hnil => hne (hnil ▸ sorted_perm ps).nil_eq.symm
  unfold productStep
  rw [hproducts, if_neg Bool.false_ne_true]
  split
  · exact absurd rfl hne
  · next ts => exact absurd rfl (hsum ts)
  · rcases productOf_cases c hne with ⟨x, hx, -⟩ | ⟨-, hproduct⟩
    · rw [hall] at hx
      exact absurd (List.cons.inj hx).2 hsorted
    · rw [hproduct, hall]

theorem exists_of_isSum {x : Symbolic} (h : x.isSum = true) : ∃ ts, x = .sum ts := by
  cases x with
  | sum ts => exact ⟨ts, rfl⟩
  | _ => cases h

/-- Factors no two of which have the same base stay apart. -/
theorem likeBases_of_distinct
    (h : (others (factorsOfList xs)).Pairwise fun x y => (x.base == y.base) = false) :
    likeBases xs = (others (factorsOfList xs).reverse).map splitPower := by
  apply collect_of_distinct
  rw [Distinct, List.pairwise_map, others, List.filter_reverse, List.pairwise_reverse]
  exact h.imp beq_eq_false_symm

/-- The factors of a product are taken apart and put together behind another coefficient. -/
theorem mul_number_kept (h : IsRest fs) (hformed : ∀ f ∈ fs, f.Formed Unquoted Unquoted)
    (hraised : ∀ f ∈ fs, Kept f (raised f.splitPower)) {r : Symbolic} (hr : r.factors = fs)
    (hzero : (c == 0) = false) (hone : (c == 1) = false) :
    ∃ qs, mul [.number c, r] = .product (.number c :: qs) ∧ KeptAll fs qs := by
  have hfactors : factorsOfList [.number c, r] = .number c :: fs := by
    simp [factorsOfList, Symbolic.factors, hr]
  have hothers : others (.number c :: fs) = fs := others_eq_self h.number
  have hnumber : ∀ f ∈ fs.reverse, f.isNumber = false := by simpa using h.number
  have hkept : ∀ f ∈ fs.reverse, Kept f (raised f.splitPower) := by simpa using hraised
  have hcoefficient : coefficient [.number c, r] = c := by
    rw [coefficient, hfactors, List.reverse_cons, foldNumbers_append_of_others hnumber]
    exact Number.one_times c
  have hpowers : powers [.number c, r] = fs.reverse.map fun f => raised f.splitPower := by
    rw [powers, likeBases_of_distinct (by rw [hfactors, hothers]; exact h.bases), hfactors, others,
      List.filter_reverse]
    change ((others (.number c :: fs)).reverse.map splitPower).map raised = _
    rw [hothers, List.map_map]
    rfl
  have hnumbers : ∀ p ∈ powers [.number c, r], p.isNumber = false := by
    rw [hpowers]
    exact List.forall_mem_map.2 fun f hf => (hkept f hf).isNumber.trans (hnumber f hf)
  have hproducts : (powers [.number c, r]).any isProduct = false := by
    rw [hpowers, List.any_eq_false]
    refine List.forall_mem_map.2 fun f hf => ?_
    rw [(hkept f hf).isProduct, h.product f (List.mem_reverse.1 hf)]
    exact Bool.false_ne_true
  have hfull : fullCoefficient [.number c, r] = c := by
    rw [fullCoefficient, hcoefficient, foldNumbers_of_others hnumbers]
  refine ⟨sorted (powers [.number c, r]), ?_, ?_⟩
  · rw [mul_eq, hcoefficient, hzero, if_neg Bool.false_ne_true, hfull, others_eq_self hnumbers]
    apply productStep_of_rest hproducts
    · rw [hpowers, ne_eq, List.map_eq_nil_iff, List.reverse_eq_nil_iff]
      exact h.ne_nil
    · intro ts hts
      rw [hpowers, List.map_eq_singleton_iff] at hts
      obtain ⟨f, hf, hraise⟩ := hts
      have hsum := (hkept f (hf ▸ List.mem_singleton_self f)).isSum
      rw [hraise] at hsum
      obtain ⟨us, rfl⟩ := exists_of_isSum hsum.symm
      exact h.ne_sum us (List.reverse_eq_iff.1 hf)
    · exact hone
  · rw [hpowers]
    exact keptAll_sorted h.ordered hformed h.distinct (List.reverse_perm fs) hkept

theorem sumOf_single (x : Symbolic) : sumOf 0 [x] = x := by
  rfl

theorem one_beq_one : ((1 : Float) == 1) = true := by decide +kernel

theorem one_beq_zero : ((1 : Float) == 0) = false := by decide +kernel

theorem scaled_one (x : Symbolic) : scaled (x, 1) = x := if_pos one_beq_one

/-- The sum of one number is the number, though not for the negative zero. -/
theorem add_number (h : (n == 0) = false) : add [number n] = number n := by
  have hconstant : constant [number n] = n := Number.zero_plus h
  have hlike : likeTerms [number n] = [] := rfl
  rw [add_eq, hconstant, hlike, List.map_nil, sumOf, List.isEmpty_nil, Bool.or_true, if_pos rfl]
  rfl

theorem pow_one (b : Symbolic) : pow b (number 1) = b := by
  rw [pow_eq]
  rfl

theorem raised_one (x : Symbolic) : raised (x, [number 1]) = x := by
  have hone : add [number 1] = number 1 := add_number one_beq_zero
  rw [raised, hone, pow_one]

/-- The sum of one term is the term with its coefficient. -/
theorem add_single {x : Symbolic} (hnumber : x.isNumber = false) (hsum : x.isSum = false)
    (hzero : (x.splitCoefficient.2 == 0) = false) : add [x] = scaled x.splitCoefficient := by
  have hparts : (termsOfList [x]).reverse = [x] := by
    rw [termsOfList_eq_self (by simpa using hsum)]
    rfl
  have hlike : likeTerms [x] = [x.splitCoefficient] := by
    rw [likeTerms, hparts, others_eq_self (by simpa using hnumber)]
    change List.filter (fun t => t.2 != 0) [x.splitCoefficient] = _
    rw [List.filter_singleton, bne, hzero]
    rfl
  have hconstant : constant [x] = 0 := by
    rw [constant, hparts, foldNumbers_of_others (by simpa using hnumber)]
  rw [add_eq, hlike, hconstant]
  exact sumOf_single _

/-- Well-shaped, and nothing is left to be collected. -/
def Tidy (s : Symbolic) : Prop := Shape s ∧ Gathered s

/-- Tidy everywhere, with names that may stand between quotes. -/
structure Neat (s : Symbolic) : Prop where
  everywhere : Everywhere Tidy s
  formed : s.Formed Unquoted Unquoted

theorem Formed.operand {V F : String → Prop} {s : Symbolic} (h : s.Formed V F) :
    ∀ x ∈ s.operands, x.Formed V F := by
  cases h with
  | number | truth | symbol => simp [operands]
  | sum _ h | product h | call _ h | logical _ h => exact h
  | power hx hy | remainder hx hy | relation hx hy => simpa [operands] using ⟨hx, hy⟩
  | negation h => simpa [operands] using h

theorem Neat.operand {s : Symbolic} (h : s.Neat) : ∀ x ∈ s.operands, x.Neat :=
  fun x hx => ⟨h.everywhere.operand x hx, h.formed.operand x hx⟩

theorem Neat.shape {s : Symbolic} (h : s.Neat) : s.Shape := h.everywhere.node.1

theorem Neat.gathered {s : Symbolic} (h : s.Neat) : s.Gathered := h.everywhere.node.2

/-- As an exponent, a term or a factor, the tree is put together again. -/
structure Stays (s : Symbolic) : Prop where
  exponent : s.isValue 0 = false → Kept s (add [s])
  term : s.isNumber = false → s.isSum = false → Kept s (scaled s.splitCoefficient)
  factor : s.isNumber = false → s.isProduct = false → Kept s (raised s.splitPower)

theorem coefficient_ne_zero {x : Symbolic} (h : Gathered x) :
    (x.splitCoefficient.2 == 0) = false := by
  unfold splitCoefficient
  split
  · obtain ⟨-, -, hzero, -⟩ := h
    exact hzero _ List.mem_cons_self
  · obtain ⟨-, -, hzero, -⟩ := h
    exact hzero _ List.mem_cons_self
  · exact one_beq_zero

/-- A tree that is no sum, product, power or number. -/
theorem stays_of_other {s : Symbolic} (hterm : s.splitCoefficient = (s, 1))
    (hfactor : s.splitPower = (s, [number 1])) (hnumber : s.isNumber = false)
    (hsum : s.isSum = false) : Stays s := by
  have hscaled : scaled s.splitCoefficient = s := by rw [hterm, scaled_one]
  have hzero : (s.splitCoefficient.2 == 0) = false := by
    rw [hterm]
    exact one_beq_zero
  refine ⟨fun _ => ?_, fun _ _ => .inl hscaled, fun _ _ => .inl ?_⟩
  · rw [add_single hnumber hsum hzero]
    exact .inl hscaled
  · rw [hfactor, raised_one]

theorem pow_of_not_number {b e : Symbolic} (he : e.isNumber = false) (hb : b.isValue 1 = false) :
    pow b e = power b e := by
  have hwhole : e.isWhole = false := by
    cases e with
    | number => cases he
    | _ => rfl
  have hproper : properPower b e = power b e := by
    unfold properPower
    split
    · cases he
    · rw [hwhole, if_neg Bool.false_ne_true]
  rw [pow_eq, powerStep, isValue_of_isNumber he, isValue_of_isNumber he, hb, hproper]
  rfl

theorem stays_power {b e : Symbolic} (hs : (power b e).Neat) (he : Stays e) : Stays (power b e) := by
  obtain ⟨hzero, -, hbase⟩ := hs.shape
  have hpow : pow b e = power b e := hs.gathered
  have hscaled : scaled (power b e).splitCoefficient = power b e := scaled_one _
  refine ⟨fun _ => ?_, fun _ _ => .inl hscaled, fun _ _ => ?_⟩
  · rw [add_single (x := power b e) rfl rfl one_beq_zero]
    exact .inl hscaled
  · change Kept (power b e) (pow b (add [e]))
    cases hnumber : e.isNumber with
    | true =>
      cases e with
      | number n => exact .inl (by rw [add_number hzero, hpow])
      | _ => cases hnumber
    | false =>
      have hkept := he.exponent hzero
      rw [pow_of_not_number (hkept.isNumber.trans hnumber) hbase]
      rcases hkept with heq | ⟨hblurred, hblurred', -⟩
      · exact .inl (by rw [heq])
      · exact .inr ⟨Bool.and_eq_false_iff.2 (.inr hblurred),
          Bool.and_eq_false_iff.2 (.inr hblurred'), rfl⟩

/-- A coefficient is split off what a product holds behind it. -/
theorem exists_splitCoefficient {rest : List Symbolic} (c : Float)
    (hproduct : ∀ f ∈ rest, f.isProduct = false) :
    ∃ r, (product (number c :: rest)).splitCoefficient = (r, c) ∧ r.factors = rest := by
  match rest with
  | [] => exact ⟨_, rfl, rfl⟩
  | [x] => exact ⟨x, rfl, factors_eq_self (hproduct x List.mem_cons_self)⟩
  | x :: y :: zs => exact ⟨product (x :: y :: zs), rfl, factorsOfList_eq_self hproduct⟩

theorem isRest_of_tidy {rest : List Symbolic} (h : Tidy (product (number c :: rest))) :
    IsRest rest := by
  obtain ⟨⟨hlen, hproducts, hnumbers, -⟩, hordered, hbases, -, hsum⟩ := h
  rw [List.forall_mem_cons] at hproducts
  have hothers : others (number c :: rest) = rest := others_eq_self hnumbers
  refine ⟨?_, fun ts hts => hsum c ts (hts ▸ rfl), hnumbers, hproducts.2,
    (List.pairwise_cons.1 hordered).2, hothers ▸ hbases⟩
  rintro rfl
  simp at hlen

/-- A product with a coefficient is split and put together again. -/
theorem scaled_product_kept {rest : List Symbolic} (hs : (product (number c :: rest)).Neat)
    (hrest : ∀ x ∈ rest, Stays x) :
    Kept (product (number c :: rest)) (scaled (product (number c :: rest)).splitCoefficient) := by
  have hisRest := isRest_of_tidy hs.everywhere.node
  obtain ⟨-, -, -, hone⟩ := hs.shape
  obtain ⟨-, -, hzero, -⟩ := hs.gathered
  have hone : (c == 1) = false := hone _ rfl
  have hzero : (c == 0) = false := hzero _ List.mem_cons_self
  have hformed : ∀ f ∈ rest, f.Formed Unquoted Unquoted :=
    fun f hf => (hs.operand f (List.mem_cons_of_mem _ hf)).formed
  obtain ⟨r, hsplit, hr⟩ := exists_splitCoefficient c hisRest.product
  obtain ⟨qs, hmul, hqs⟩ := mul_number_kept hisRest hformed
    (fun f hf => (hrest f hf).factor (hisRest.number f hf) (hisRest.product f hf)) hr hzero hone
  rw [hsplit, scaled, hone, if_neg Bool.false_ne_true, hmul]
  exact hqs.product

theorem stays_product (hs : (product xs).Neat) (hxs : ∀ x ∈ xs, Stays x) : Stays (product xs) := by
  have hterm : Kept (product xs) (scaled (product xs).splitCoefficient) := by
    cases xs with
    | nil => exact .inl (scaled_one _)
    | cons x rest =>
      cases hnumber : x.isNumber with
      | false =>
        rw [splitCoefficient_of_not_number hnumber]
        exact .inl (scaled_one _)
      | true =>
        cases x with
        | number c => exact scaled_product_kept hs (List.forall_mem_cons.1 hxs).2
        | _ => cases hnumber
  refine ⟨fun _ => ?_, fun _ _ => hterm, fun _ h => by cases h⟩
  rw [add_single (x := product xs) rfl rfl (coefficient_ne_zero hs.gathered)]
  exact hterm

theorem numbers_cases (h : (xs.filter isNumber).length ≤ 1) :
    xs.filter isNumber = [] ∨ ∃ k, xs.filter isNumber = [number k] := by
  match hxs : xs.filter isNumber, h with
  | [], _ => exact .inl rfl
  | [x], _ =>
    have hnumber : x.isNumber = true := (List.mem_filter.1 (hxs ▸ List.mem_singleton_self x)).2
    cases x with
    | number k => exact .inr ⟨k, rfl⟩
    | _ => cases hnumber

theorem others_append_numbers (xs : List Symbolic) : (others xs ++ xs.filter isNumber).Perm xs :=
  List.perm_append_comm.trans (List.filter_append_perm isNumber xs)

theorem foldNumbers_filter (f : Float → Float → Float) (start : Float) (xs : List Symbolic) :
    foldNumbers f start (xs.filter isNumber) = foldNumbers f start xs := by
  rw [foldNumbers, foldNumbers, List.filterMap_filter]
  congr 2
  funext x
  cases hx : x.number? <;> simp [isNumber, hx]

/-- What holds between all that are no numbers, and between them and the one number. -/
theorem pairwise_of_others {R : Symbolic → Symbolic → Prop} (hsymm : ∀ {x y}, R x y → R y x)
    (hothers : (others xs).Pairwise R) (hnumbers : (xs.filter isNumber).length ≤ 1)
    (hnumber : ∀ x ∈ others xs, ∀ y ∈ xs, y.isNumber = true → R x y) : xs.Pairwise R := by
  refine (List.Perm.pairwise_iff hsymm (others_append_numbers xs)).1 ?_
  refine List.pairwise_append.2 ⟨hothers, ?_, fun x hx y hy => ?_⟩
  · rcases numbers_cases hnumbers with hnone | ⟨k, hone⟩
    · exact hnone ▸ List.Pairwise.nil
    · exact hone ▸ List.pairwise_singleton _ _
  · exact hnumber x hx y (List.mem_filter.1 hy).1 (List.mem_filter.1 hy).2

theorem beq_number_eq_false {x y : Symbolic} (hx : x.isNumber = false) (hy : y.isNumber = true) :
    (x == y) = false := by
  refine Bool.eq_false_iff.2 fun heq => ?_
  rw [beq_isNumber heq, hy] at hx
  cases hx

/-- What a sum may hold: no two terms are the same but for their coefficients, and none is zero. -/
structure IsTerms (ts : List Symbolic) : Prop where
  ne_nil : ts ≠ []
  terms : (others ts).Pairwise fun x y => (x.term == y.term) = false
  numbers : (ts.filter isNumber).length ≤ 1
  value : ∀ t ∈ ts, t.isValue 0 = false
  coefficient : ∀ t ∈ ts, (t.splitCoefficient.2 == 0) = false

/-- The terms of a sum and its number are all different. -/
theorem IsTerms.distinct {ts : List Symbolic} (h : IsTerms ts) :
    ts.Pairwise fun x y => (x == y) = false := by
  refine pairwise_of_others beq_eq_false_symm (h.terms.imp fun hne => ?_) h.numbers ?_
  · exact Bool.eq_false_iff.2 fun heq => Bool.eq_false_iff.1 hne (beq_term heq)
  · exact fun x hx y _ hy => beq_number_eq_false (isNumber_of_mem_others hx) hy

theorem Neat.isTerms (hs : (sum xs).Neat) : IsTerms xs := by
  obtain ⟨-, hterms, hnumbers, hoperands⟩ := hs.gathered
  refine ⟨?_, hterms, hnumbers, fun x hx => (hoperands x hx).2,
    fun x hx => coefficient_ne_zero (hs.operand x hx).gathered⟩
  rintro rfl
  have hlen : 2 ≤ 0 := hs.shape
  omega

theorem likeTerms_of_distinct (h : IsTerms (termsOfList xs)) :
    likeTerms xs = (others (termsOfList xs).reverse).map splitCoefficient := by
  have hdistinct : Distinct ((others (termsOfList xs).reverse).map splitCoefficient) := by
    rw [Distinct, List.pairwise_map, others, List.filter_reverse, List.pairwise_reverse]
    exact h.terms.imp beq_eq_false_symm
  rw [likeTerms, collect_of_distinct hdistinct, List.filter_eq_self]
  refine List.forall_mem_map.2 fun x hx => ?_
  rw [bne, h.coefficient x (List.mem_reverse.1 (mem_of_mem_others hx))]
  rfl

/-- A term with its coefficient, or a number. -/
def again (x : Symbolic) : Symbolic := if x.isNumber then x else scaled x.splitCoefficient

theorem again_kept (hxs : ∀ x ∈ xs, Stays x) (hsums : ∀ x ∈ xs, x.isSum = false) (hx : x ∈ xs) :
    Kept x (again x) := by
  unfold again
  split
  · exact .refl x
  · next hnumber => exact (hxs x hx).term (Bool.eq_false_iff.2 hnumber) (hsums x hx)

theorem map_again_others (xs : List Symbolic) :
    (others xs).map again = ((others xs).map splitCoefficient).map scaled := by
  rw [List.map_map]
  refine List.map_congr_left fun x hx => ?_
  rw [again, isNumber_of_mem_others hx, if_neg Bool.false_ne_true]
  rfl

/-- Terms that are different are taken apart and put together one by one. -/
theorem withConstant_of_terms (h : IsTerms (termsOfList xs)) :
    withConstant (constant xs) ((likeTerms xs).map scaled) =
      (others (termsOfList xs).reverse ++ (termsOfList xs).filter isNumber).map again := by
  have hconstant : constant xs =
      foldNumbers (· + ·) 0 ((termsOfList xs).filter isNumber).reverse := by
    rw [constant, ← foldNumbers_filter, List.filter_reverse]
  rw [likeTerms_of_distinct h, List.map_append, map_again_others, hconstant]
  rcases numbers_cases h.numbers with hnone | ⟨k, hone⟩
  · have hall : ∀ x ∈ (termsOfList xs).reverse, x.isNumber = false := fun x hx =>
      Bool.eq_false_iff.2 fun hnumber =>
        List.filter_eq_nil_iff.1 hnone x (List.mem_reverse.1 hx) hnumber
    have hempty : (((others (termsOfList xs).reverse).map splitCoefficient).map scaled).isEmpty =
        false := by
      rw [others_eq_self hall, List.isEmpty_eq_false_iff]
      intro hnil
      rw [List.map_eq_nil_iff, List.map_eq_nil_iff, List.reverse_eq_nil_iff] at hnil
      exact h.ne_nil hnil
    have hzero : ((0 : Float) != 0) = false := by decide +kernel
    rw [hnone, withConstant, hempty, Bool.or_false, List.map_nil, List.append_nil]
    exact if_neg (Bool.eq_false_iff.1 hzero)
  · have hmem : number k ∈ termsOfList xs :=
      (List.mem_filter.1 (hone ▸ List.mem_singleton_self _)).1
    have hzero : (k == 0) = false := h.value _ hmem
    have hk : foldNumbers (· + ·) 0 [number k].reverse = k := Number.zero_plus hzero
    rw [hone, hk, withConstant, bne, hzero]
    rfl

theorem others_reverse_append_numbers (xs : List Symbolic) :
    (others xs.reverse ++ xs.filter isNumber).Perm xs :=
  (((List.reverse_perm xs).filter _).append_right _).trans (others_append_numbers xs)

theorem stays_sum (hs : (sum xs).Neat) (hxs : ∀ x ∈ xs, Stays x) : Stays (sum xs) := by
  refine ⟨fun _ => ?_, fun _ h => (by cases h), fun _ _ => .inl (raised_one _)⟩
  have hsums : ∀ x ∈ xs, x.isSum = false := fun x hx => (hs.gathered.2.2.2 x hx).1
  have hlen : 2 ≤ xs.length := hs.shape
  have hterms : termsOfList [sum xs] = xs := by
    rw [termsOfList, terms, termsOfList_eq_self hsums, termsOfList, List.append_nil]
  have hperm := others_reverse_append_numbers xs
  have hkept : ∀ x ∈ others xs.reverse ++ xs.filter isNumber, Kept x (again x) :=
    fun x hx => again_kept hxs hsums (hperm.mem_iff.1 hx)
  have hsorted := keptAll_sorted hs.gathered.1 (fun x hx => (hs.operand x hx).formed)
    hs.isTerms.distinct hperm hkept
  have hall := @withConstant_of_terms [sum xs] (by rw [hterms]; exact hs.isTerms)
  rw [hterms] at hall
  rw [add_eq]
  rcases sumOf_cases (constant [sum xs]) ((likeTerms [sum xs]).map scaled) with
    ⟨x, hx, -⟩ | ⟨-, hsum⟩
  · rw [hall] at hx
    have hone := congrArg List.length hx
    rw [List.length_map, hperm.length_eq, List.length_singleton] at hone
    omega
  · rw [hsum, hall]
    exact hsorted.sum

/-- What is tidy is put together again, by induction on the tree. -/
theorem Neat.stays {s : Symbolic} (hs : s.Neat) : Stays s := by
  induction s using Symbolic.induct with
  | number n =>
    exact ⟨fun hzero => .inl (add_number hzero), fun h => (by cases h), fun h => (by cases h)⟩
  | sum xs ih => exact stays_sum hs fun x hx => ih x hx (hs.operand x hx)
  | product xs ih => exact stays_product hs fun x hx => ih x hx (hs.operand x hx)
  | power b e ihb ihe => exact stays_power hs (ihe (hs.operand e (by simp [operands])))
  | _ => exact stays_of_other rfl rfl rfl rfl

end Formulae.Symbolic
