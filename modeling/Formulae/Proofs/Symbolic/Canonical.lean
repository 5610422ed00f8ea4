import Formulae.Proofs.Symbolic.Tidy

namespace Formulae.Symbolic
set_option autoImplicit true

/-- Is the coefficient one, or no sum the first factor behind it? -/
def Undistributed (c : Float) (fs : List Symbolic) : Prop :=
  (c == 1) = true ∨ ∀ f ∈ fs.head?, f.isSum = false

/-- Numbers are finite and have no sign of zero, a sum begins with a term that binds at least as
tightly as a sum, a product with a coefficient does not begin with a sum, and no quotient has a
number below. -/
def Settled : Symbolic → Prop
  | number x => x.isFinite = true ∧ x ≠ -0
  | sum xs => ∃ x ∈ (inOrder xs).head?, 5 ≤ x.precedence
  | product xs => Undistributed (coefficientOf xs).1 (factorsAbove xs)
  | power b e => ∀ d ∈ (power b e).divisor?, d.isNumber = false
  | _ => True

instance : DecidablePred Settled
  | .number x => inferInstanceAs (Decidable (x.isFinite = true ∧ x ≠ -0))
  | .sum xs => inferInstanceAs (Decidable (∃ x ∈ (inOrder xs).head?, 5 ≤ x.precedence))
  | .product xs => inferInstanceAs (Decidable (((coefficientOf xs).1 == 1) = true ∨
      ∀ f ∈ (factorsAbove xs).head?, f.isSum = false))
  | .power b e => inferInstanceAs (Decidable (∀ d ∈ (power b e).divisor?, d.isNumber = false))
  | .truth _ | .symbol _ | .remainder _ _ | .call _ _ | .relation _ _ _ | .negation _
  | .logical _ _ => isTrue trivial

/-- Collected, and settled everywhere. -/
structure Canonical (s : Symbolic) : Prop where
  neat : s.Neat
  fixed : Everywhere Fixed s
  settled : Everywhere Settled s

variable {s : Symbolic} {xs ts us : List Symbolic}

theorem beqList_self (h : ∀ x ∈ xs, (x == x) = true) : beqList xs xs = true := by
  induction xs with
  | nil => rfl
  | cons x xs ih =>
    rw [List.forall_mem_cons] at h
    exact Bool.and_eq_true_iff.2 ⟨h.1, ih h.2⟩

theorem beq_self_of_settled (h : Everywhere Settled s) : (s == s) = true := by
  induction s using Symbolic.induct with
  | number x =>
    refine Float.beq_self_iff.2 ?_
    rintro rfl
    cases h.node.1
  | truth b => exact beq_self_eq_true b
  | symbol x => exact beq_self_eq_true x
  | sum xs ih | product xs ih => exact beqList_self fun x hx => ih x hx (h.operand x hx)
  | call f xs ih | logical f xs ih =>
    have hxs : beqList xs xs = true := beqList_self fun x hx => ih x hx (h.operand x hx)
    exact Bool.and_eq_true_iff.2 ⟨beq_self_eq_true f, hxs⟩
  | power x y ihx ihy | remainder x y ihx ihy =>
    exact Bool.and_eq_true_iff.2
      ⟨ihx (h.operand x (by simp [operands])), ihy (h.operand y (by simp [operands]))⟩
  | relation op x y ihx ihy =>
    exact Bool.and_eq_true_iff.2 ⟨Bool.and_eq_true_iff.2
      ⟨beq_self_eq_true op, ihx (h.operand x (by simp [operands]))⟩,
      ihy (h.operand y (by simp [operands]))⟩
  | negation x ih => exact ih (h.operand x (by simp [operands]))

namespace Canonical

theorem operand (h : Canonical s) : ∀ x ∈ s.operands, Canonical x :=
  fun x hx => ⟨h.neat.operand x hx, h.fixed.operand x hx, h.settled.operand x hx⟩

theorem node (htidy : Tidy s) (hformed : s.Formed Unquoted Unquoted) (hfixed : s.Fixed)
    (hsettled : s.Settled) (hs : ∀ x ∈ s.operands, Canonical x) : Canonical s where
  neat := ⟨.intro htidy fun x hx => (hs x hx).neat.everywhere, hformed⟩
  fixed := .intro hfixed fun x hx => (hs x hx).fixed
  settled := .intro hsettled fun x hx => (hs x hx).settled

theorem number (hfinite : x.isFinite = true) (hx : x ≠ -0) : Canonical (.number x) :=
  node ⟨trivial, trivial⟩ .number trivial ⟨hfinite, hx⟩ (by simp [operands])

theorem one : Canonical (.number 1) :=
  number (by decide +kernel) (by decide +kernel)

theorem clear (h : Canonical s) : ¬Blurred s :=
  fun hblurred => Bool.eq_false_iff.1 hblurred (beq_self_of_settled h.settled)

theorem again_eq (h : Canonical s) (hsum : s.isSum = false) : again s = s := by
  unfold again
  split
  · rfl
  · next hnumber =>
    exact (h.neat.stays.term (Bool.eq_false_iff.2 hnumber) hsum).eq_of_not_blurred h.clear

theorem raised_eq (h : Canonical s) (hnumber : s.isNumber = false)
    (hproduct : s.isProduct = false) : raised s.splitPower = s :=
  (h.neat.stays.factor hnumber hproduct).eq_of_not_blurred h.clear

theorem nodup_key (h : ∀ x ∈ xs, Canonical x) (hne : xs.Pairwise fun x y => (x == y) = false) :
    (xs.map key).Nodup :=
  Symbolic.nodup_key (fun x hx => (h x hx).neat.formed) (fun x hx => (h x hx).clear) hne

end Canonical

theorem sorted_congr (hperm : us.Perm ts) (hkeys : (ts.map key).Nodup) : sorted us = sorted ts := by
  have hsorted := sorted_perm ts
  exact sorted_of_perm (hperm.trans hsorted.symm) (sorted_ordered ts)
    ((hsorted.map key).nodup_iff.2 hkeys)

/-- Canonical terms that may stand in a sum. -/
structure AreTerms (ts : List Symbolic) : Prop where
  canonical : ∀ t ∈ ts, Canonical t
  sum : ∀ t ∈ ts, t.isSum = false
  isTerms : IsTerms ts

theorem IsTerms.perm (h : IsTerms ts) (hperm : us.Perm ts) : IsTerms us where
  ne_nil hnil := h.ne_nil (List.nil_perm.1 (hnil ▸ hperm))
  terms := (List.Perm.pairwise_iff (fun {_ _} => beq_eq_false_symm) (hperm.filter _)).2 h.terms
  numbers := (hperm.filter _).length_eq.trans_le h.numbers
  value t ht := h.value t (hperm.mem_iff.1 ht)
  coefficient t ht := h.coefficient t (hperm.mem_iff.1 ht)

theorem IsTerms.sublist (h : IsTerms ts) (hsub : us.Sublist ts) (hne : us ≠ []) : IsTerms us where
  ne_nil := hne
  terms := h.terms.sublist (hsub.filter _)
  numbers := (hsub.filter _).length_le.trans h.numbers
  value t ht := h.value t (hsub.subset ht)
  coefficient t ht := h.coefficient t (hsub.subset ht)

namespace AreTerms

theorem perm (h : AreTerms ts) (hperm : us.Perm ts) : AreTerms us where
  canonical t ht := h.canonical t (hperm.mem_iff.1 ht)
  sum t ht := h.sum t (hperm.mem_iff.1 ht)
  isTerms := h.isTerms.perm hperm

theorem sublist (h : AreTerms ts) (hsub : us.Sublist ts) (hne : us ≠ []) : AreTerms us where
  canonical t ht := h.canonical t (hsub.subset ht)
  sum t ht := h.sum t (hsub.subset ht)
  isTerms := h.isTerms.sublist hsub hne

theorem nodup_key (h : AreTerms ts) : (ts.map key).Nodup :=
  Canonical.nodup_key h.canonical h.isTerms.distinct

end AreTerms

theorem withConstant_zero (h : ts ≠ []) : withConstant 0 ts = ts := by
  have hzero : ((0 : Float) != 0) = false := by decide +kernel
  rw [withConstant, hzero, Bool.false_or, if_neg]
  simpa using h

theorem sumOf_two (h : 2 ≤ ts.length) : sumOf 0 ts = sum (sorted ts) := by
  match ts with
  | [] | [t] => simp at h
  | t :: t' :: ts => exact sumOf_several (withConstant_zero (List.cons_ne_nil _ _))

/-- A constant is one of the terms of a sum. -/
theorem sumOf_withConstant (c : Float) (xs : List Symbolic) :
    sumOf c xs = sumOf 0 (withConstant c xs) := by
  rcases sumOf_cases c xs with ⟨x, hx, hsum⟩ | ⟨hlen, hsum⟩
  · rw [hsum, hx, sumOf_single]
  · rw [hsum, sumOf_two hlen]

namespace AreTerms

theorem sumOf_perm (h : AreTerms ts) (hperm : us.Perm ts) : sumOf 0 us = sumOf 0 ts := by
  match ts, h.isTerms.ne_nil with
  | [t], _ => rw [List.perm_singleton.1 hperm]
  | t :: t' :: ts, _ =>
    have hlen : 2 ≤ (t :: t' :: ts).length := by simp
    rw [sumOf_two hlen, sumOf_two (hlen.trans_eq hperm.length_eq.symm),
      sorted_congr hperm h.nodup_key]

/-- A sum is the sum of its terms, whatever the order and grouping. -/
theorem add_eq (h : AreTerms ts) (hperm : (termsOfList xs).Perm ts) : add xs = sumOf 0 ts := by
  have hxs := h.perm hperm
  have hall := withConstant_of_terms hxs.isTerms
  have hperm' := (others_reverse_append_numbers (termsOfList xs)).trans hperm
  have hagain : (others (termsOfList xs).reverse ++ (termsOfList xs).filter isNumber).map again =
      others (termsOfList xs).reverse ++ (termsOfList xs).filter isNumber := by
    refine (List.map_congr_left fun t ht => ?_).trans (List.map_id _)
    have ht := hperm'.mem_iff.1 ht
    exact (h.canonical t ht).again_eq (h.sum t ht)
  rw [Symbolic.add_eq, sumOf_withConstant, hall, hagain, h.sumOf_perm hperm']

theorem terms_sumOf (h : AreTerms ts) : (sumOf 0 ts).terms.Perm ts := by
  match ts, h.isTerms.ne_nil with
  | [t], _ => rw [sumOf_single, terms_eq_self (h.sum t List.mem_cons_self)]
  | t :: t' :: ts, _ =>
    rw [sumOf_two (by simp), terms, termsOfList_eq_self fun x hx => h.sum x (mem_sorted.1 hx)]
    exact sorted_perm _

/-- Terms can be added to a sum one by one. -/
theorem foldl_add (h : AreTerms (ts ++ us)) (hne : ts ≠ []) :
    us.foldl (fun s t => add [s, t]) (sumOf 0 ts) = sumOf 0 (ts ++ us) := by
  induction us generalizing ts with
  | nil => rw [List.foldl_nil, List.append_nil]
  | cons t us ih =>
    rw [List.append_cons] at h ⊢
    have hts := h.sublist (List.sublist_append_left (ts ++ [t]) us) (by simp)
    have hterms : (termsOfList [sumOf 0 ts, t]).Perm (ts ++ [t]) := by
      have ht := terms_eq_self (h.sum t (by simp))
      simp only [termsOfList, List.append_nil, ht]
      exact (hts.sublist (List.sublist_append_left ts [t]) hne).terms_sumOf.append_right [t]
    rw [List.foldl_cons, hts.add_eq hterms, ih h (by simp)]

end AreTerms

theorem Canonical.areTerms (h : Canonical (sum xs)) : AreTerms (inOrder xs) := by
  have hterms : AreTerms xs :=
    ⟨h.operand, fun x hx => (h.neat.gathered.2.2.2 x hx).1, h.neat.isTerms⟩
  exact hterms.perm (others_append_numbers xs)

end Formulae.Symbolic
