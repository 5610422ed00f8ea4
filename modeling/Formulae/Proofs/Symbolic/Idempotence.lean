import Formulae.Proofs.Symbolic.Collected
import Formulae.Proofs.Symbolic.Divisors
import Formulae.Proofs.Symbolic.RoundTrip

namespace Formulae
open Outcome
set_option autoImplicit true

namespace Symbolic

variable {source : Symbolic → Expr} {xs fs : List Symbolic}

theorem symbolic_literal (hx : x.isFinite = true) : (literal x).symbolic = number x.abs := by
  obtain ⟨n, hn, hvalue⟩ := read?_numberText hx
  simp only [literal, Expr.symbolic, hn, Option.map_some, Option.getD_some, hvalue]

theorem symbolic_signed (x : Float) (e : Expr) :
    (signed x e).symbolic = if x < 0 then neg e.symbolic else e.symbolic := by
  unfold signed
  split <;> rfl

/-- The literal of a number with its sign. -/
theorem symbolic_number (h : Canonical (number x)) :
    (signed x (literal x)).symbolic = number x := by
  obtain ⟨hfinite, hzero⟩ := h.settled.node
  rw [symbolic_signed, symbolic_literal hfinite]
  split
  · next hneg =>
    have habs := Number.neg_abs hneg
    have hne : (x.abs == 0) = false := by
      rw [← Number.neg_beq_zero, habs, Number.beq_zero_of_neg hneg]
    have hsign : neg (number x.abs) = number (-x.abs) := AreFactors.nil.neg_productStep (.nil _) hne
    rw [hsign, habs]
  · next hpos => rw [Number.abs_of_not_neg hpos hzero]

theorem symbolic_productOfAll (e : Expr) (es : List Expr) :
    (productOfAll e es).symbolic =
      (es.map Expr.symbolic).foldl (fun s f => mul [s, f]) e.symbolic := by
  induction es generalizing e with
  | nil => rfl
  | cons e' es ih => exact ih _

theorem map_symbolic (h : ∀ f ∈ fs, (source f).symbolic = f) :
    (fs.map source).map Expr.symbolic = fs := by
  rw [List.map_map]
  exact (List.map_congr_left h).trans (List.map_id fs)

theorem symbolic_productOfAll_cons (hfs : AreFactors (f :: fs))
    (hsource : ∀ g ∈ f :: fs, (source g).symbolic = g) :
    (productOfAll (source f) (fs.map source)).symbolic = productStep 1 (f :: fs) := by
  rw [List.forall_mem_cons] at hsource
  have hone := (hfs.sublist (List.sublist_append_left [f] fs)).productStep_one
  have hfold := @AreFactors.foldl_mul [f] fs 1 hfs (.one _) one_beq_zero
  rw [hone] at hfold
  rw [symbolic_productOfAll, hsource.1, map_symbolic hsource.2, hfold]
  rfl

/-- The coefficient comes first, or its sign goes to the first factor if it is plus or minus one. -/
theorem symbolic_quotientOf (hfs : AreFactors fs) (hc : Canonical (number c))
    (hzero : (c == 0) = false) (hd : Undistributed c fs)
    (hsource : ∀ f ∈ fs, (source f).symbolic = f) :
    (quotientOf c (fs.map source) []).symbolic = productStep c fs := by
  by_cases hcoefficient : (c.abs != 1 || (fs.map source).isEmpty) = true
  · have hquotient : quotientOf c (fs.map source) [] =
        productOfAll (signed c (literal c)) (fs.map source) := by
      simp only [quotientOf, if_pos hcoefficient]
    rw [hquotient, symbolic_productOfAll, symbolic_number hc, map_symbolic hsource]
    exact @AreFactors.foldl_mul [] fs c hfs hd hzero
  · cases fs with
    | nil => simp at hcoefficient
    | cons f fs =>
      rw [List.map_cons] at hcoefficient
      have hquotient : quotientOf c ((f :: fs).map source) [] =
          productOfAll (signed c (source f)) (fs.map source) := by
        simp only [quotientOf, List.map_cons, if_neg hcoefficient]
      have habs : c.abs = 1 := Number.eq_one_of_beq (by simpa [bne] using hcoefficient)
      have hf := hfs.sublist (List.sublist_append_left [f] fs)
      rw [List.forall_mem_cons] at hsource
      have hfirst : (signed c (source f)).symbolic = productStep c [f] := by
        rw [symbolic_signed, hsource.1]
        split
        · next hneg =>
          have hminus : c = -1 := by rw [← Number.neg_abs hneg, habs]
          have hnegation := hf.neg_productStep (.one [f]) one_beq_zero
          rw [hf.productStep_one] at hnegation
          rw [hminus, hnegation]
        · next hpos =>
          have hone : c = 1 := by rw [← Number.abs_of_not_neg hpos hc.settled.node.2, habs]
          rw [hone, hf.productStep_one]
      rw [hquotient, symbolic_productOfAll, hfirst, map_symbolic hsource.2]
      exact @AreFactors.foldl_mul [f] fs c hfs hd hzero

/-- The expression for a product is turned into the product. -/
theorem symbolic_quotientSource (hfs : AreFactors (coefficientOf xs).2)
    (hc : Canonical (number (coefficientOf xs).1)) (hzero : ((coefficientOf xs).1 == 0) = false)
    (hd : Undistributed (coefficientOf xs).1 (factorsAbove xs))
    (hsource : ∀ p ∈ quotientParts xs, (source p).symbolic = p) :
    (quotientSource source xs).symbolic =
      productStep (coefficientOf xs).1 (coefficientOf xs).2 := by
  rw [quotientParts, List.forall_mem_append] at hsource
  have hperm := perm_quotientParts hfs.canonical
  have hall := hfs.perm hperm
  have habove := symbolic_quotientOf (hall.sublist (List.sublist_append_left _ _)) hc hzero hd
    hsource.1
  rw [quotientSource, ← hfs.productStep_perm hperm]
  cases hdivisors : factorsBelow xs with
  | nil =>
    rw [List.map_nil, List.map_nil, List.append_nil]
    exact habove
  | cons d ds =>
    rw [hdivisors] at hall hsource
    have hds : AreFactors (d :: ds) := hdivisors ▸ hfs.divisors
    have hquotient : quotientOf (coefficientOf xs).1 ((factorsAbove xs).map source)
        ((d :: ds).map source) = .binary .div
          (quotientOf (coefficientOf xs).1 ((factorsAbove xs).map source) [])
          (productOfAll (source d) (ds.map source)) .zero := rfl
    have hbelow := hds.inverse_productStep (List.cons_ne_nil d ds)
      (hall.sublist (List.sublist_append_right _ _))
    have hmul := hall.mul_productStep hd (.one _) (by rw [Number.one_times, hzero])
    rw [Number.one_times] at hmul
    rw [hquotient, Expr.symbolic, habove, symbolic_productOfAll_cons hds hsource.2, ofBinary, div,
      ← inverse, hbelow, hmul]

/-- Subtracting the negation of a term is adding the term. -/
theorem symbolic_addend {y : Symbolic} (hy : Canonical y)
    (hsource : (source y.signless).symbolic = y.signless) (e : Expr) :
    (Expr.binary y.signOf e (source y.signless) .zero).symbolic = add [e.symbolic, y] := by
  rw [Expr.symbolic, hsource]
  unfold signOf signless
  split
  · next hsub => rw [ofBinary, sub, (hy.subtracted hsub).2]
  · rfl

theorem symbolic_addends {ys : List Symbolic} (hys : ∀ y ∈ ys, Canonical y)
    (hsource : ∀ y ∈ ys, (source y.signless).symbolic = y.signless) (e : Expr) :
    (ys.foldl (fun e y => .binary y.signOf e (source y.signless) .zero) e).symbolic =
      ys.foldl (fun s y => add [s, y]) e.symbolic := by
  induction ys generalizing e with
  | nil => rfl
  | cons y ys ih =>
    rw [List.forall_mem_cons] at hys hsource
    rw [List.foldl_cons, ih hys.2 hsource.2, symbolic_addend hys.1 hsource.1, List.foldl_cons]

/-- The expression for a sum is turned into the sum. -/
theorem symbolic_sumSource (h : Canonical (sum xs))
    (hsource : ∀ p ∈ sumParts (inOrder xs), (source p).symbolic = p) :
    (sumSource source (inOrder xs)).symbolic = sum xs := by
  have hterms := h.areTerms
  have hordered : sorted (inOrder xs) = xs :=
    sorted_of_perm (others_append_numbers xs) h.neat.gathered.1
      (Canonical.nodup_key h.operand h.neat.isTerms.distinct)
  have hlen : 2 ≤ (inOrder xs).length :=
    h.neat.shape.trans_eq (others_append_numbers xs).length_eq.symm
  cases hparts : inOrder xs with
  | nil => exact absurd hparts hterms.isTerms.ne_nil
  | cons x ys =>
    rw [hparts] at hterms hordered hlen hsource
    rw [sumParts, List.forall_mem_cons, List.forall_mem_map] at hsource
    have hys : ∀ y ∈ ys, Canonical y := fun y hy => hterms.canonical y (List.mem_cons_of_mem _ hy)
    rw [sumSource, symbolic_addends hys hsource.2, hsource.1]
    have hsum := @AreTerms.foldl_add [x] ys hterms (List.cons_ne_nil _ _)
    rw [sumOf_single] at hsum
    rw [hsum, List.singleton_append, sumOf_two hlen, hordered]

/-- The trees that the text of a canonical tree is made of are canonical. -/
theorem Canonical.parts {s : Symbolic} (h : Canonical s) : ∀ p ∈ s.parts, Canonical p := by
  have hquotient {xs : List Symbolic} (hxs : ∀ x ∈ xs, Canonical x) :
      ∀ p ∈ quotientParts xs, Canonical p := by
    intro p hp
    obtain ⟨x, hx, ⟨rfl, -⟩ | hd⟩ := mem_quotientParts hp
    · exact hxs _ hx
    · exact ((hxs x hx).divides hd).canonical
  cases s with
  | number | truth | symbol => simp [Symbolic.parts]
  | sum xs =>
    intro p hp
    obtain ⟨x, hx, rfl | rfl⟩ := mem_sumParts hp
    · exact h.operand _ hx
    · exact (h.operand x hx).signless
  | product xs => exact hquotient h.operand
  | power b e =>
    have hoperands : Canonical b ∧ Canonical e := by simpa [operands] using h.operand
    rw [Symbolic.parts]
    split
    · simpa using hoperands.1
    split
    · exact hquotient (by simpa using h)
    · simpa using hoperands
  | _ => exact h.operand

/-- The expression for a power is a root, a quotient or a power. -/
theorem symbolic_power {b e : Symbolic} (h : Canonical (power b e))
    (hsource : ∀ p ∈ (power b e).parts, (source p).symbolic = p) :
    (nodeSource source (power b e)).symbolic = power b e := by
  have hpower : pow b e = power b e := h.neat.gathered
  rw [parts] at hsource
  rw [nodeSource]
  split
  · next hroot =>
    rw [if_pos hroot, List.forall_mem_singleton] at hsource
    cases e with
    | number n =>
      have hhalf : (0.5 : Float).toModel.unpack = .finite .positive (2 ^ 52) (-53) (by decide) := by
        rfl
      rw [Number.eq_of_beq_finite hroot hhalf] at hpower ⊢
      rw [Expr.symbolic, Expr.symbolicList, Expr.symbolicList, hsource]
      exact hpower
    | _ => cases hroot
  · next hroot =>
    rw [if_neg hroot] at hsource
    split
    · next hneg =>
      rw [if_pos hneg] at hsource
      have hfactors : AreFactors [power b e] := ⟨by simpa using h, by simp [isNumber, number?],
        by simp [isProduct], List.pairwise_singleton _ _⟩
      have hquotient :=
        @symbolic_quotientSource source [power b e] hfactors .one one_beq_zero (.one _) hsource
      exact hquotient.trans hfactors.productStep_one
    · next hpos =>
      rw [if_neg hpos, List.forall_mem_cons, List.forall_mem_singleton] at hsource
      rw [Expr.symbolic, hsource.1, hsource.2, ofBinary, hpower]

theorem relate_of_shape {x y : Symbolic} (h : Shape (relation op x y)) :
    relate op x y = relation op x y := by
  unfold relate
  split
  · exact absurd ⟨rfl, rfl⟩ h
  · rfl

theorem not_of_isNegatable {x : Symbolic} (h : x.isNegatable = true) : not x = negation x := by
  cases x with
  | truth | relation => cases h
  | negation x =>
    rw [not, if_neg]
    simpa [isNegatable] using h
  | _ => rfl

/-- A canonical tree is what the expression for it is turned into, if its parts are. -/
theorem symbolic_nodeSource {s : Symbolic} (h : Canonical s)
    (hsource : ∀ p ∈ s.parts, (source p).symbolic = p) : (nodeSource source s).symbolic = s := by
  have hshape := h.neat.shape
  have hfixed := h.fixed.node
  cases s with
  | number x => exact symbolic_number h
  | truth b => rfl
  | symbol x => rfl
  | sum xs => exact symbolic_sumSource h hsource
  | product xs =>
    obtain ⟨hc, hzero, hfactors, -, hproduct⟩ := h.product_eq
    exact (symbolic_quotientSource hfactors hc hzero h.settled.node hsource).trans hproduct
  | power b e => exact symbolic_power h hsource
  | remainder x y =>
    rw [parts, List.forall_mem_cons, List.forall_mem_singleton] at hsource
    rw [nodeSource, Expr.symbolic, hsource.1, hsource.2, ofBinary, hfixed]
  | call f xs =>
    rw [parts] at hsource
    rw [nodeSource, Expr.symbolic, Expr.symbolicList_eq, map_symbolic hsource]
    rcases apply_cases f xs with ⟨x, hf, rfl, -⟩ | ⟨-, hcall⟩
    · exact absurd ⟨hf, rfl⟩ hshape
    · exact hcall
  | relation op x y =>
    rw [parts, List.forall_mem_cons, List.forall_mem_singleton] at hsource
    rw [nodeSource, Expr.symbolic, Expr.relations, Expr.relations, hsource.1, hsource.2,
      relate_of_shape hshape]
    rfl
  | negation x =>
    rw [parts, List.forall_mem_singleton] at hsource
    rw [nodeSource, Expr.symbolic, hsource, ofUnary, not_of_isNegatable hshape]
  | logical op xs =>
    rw [parts] at hsource
    rw [nodeSource, Expr.symbolic, Expr.symbolicList_eq, map_symbolic hsource, hfixed]

/-- By induction on the depth within which the tree is written. -/
theorem symbolic_sourceWithin {s : Symbolic} (h : Canonical s) (hdepth : s.writingCost < depth) :
    (sourceWithin depth s).symbolic = s := by
  induction depth generalizing s with
  | zero => cases hdepth
  | succ depth ih =>
    refine symbolic_nodeSource h fun p hp => ih (h.parts p hp) ?_
    have hlt := writingCost_lt hp
    omega

/-- What is settled is firm. -/
theorem Canonical.firmWithin {s : Symbolic} (h : Canonical s) (hdepth : s.writingCost < depth) :
    FirmWithin depth s := by
  induction depth generalizing s with
  | zero => cases hdepth
  | succ depth ih =>
    refine ⟨?_, fun p hp => ih (h.parts p hp) ?_⟩
    · have hsettled := h.settled.node
      cases s with
      | number x => exact hsettled.1
      | sum xs => exact hsettled
      | product xs => exact h.product_eq.1.settled.node.1
      | _ => trivial
    · have hlt := writingCost_lt hp
      omega

theorem Canonical.symbolic_source {s : Symbolic} (h : Canonical s) : s.source.symbolic = s :=
  symbolic_sourceWithin h (writingCost_lt_depthFor s)

end Symbolic

/-- Is a tree settled everywhere, as far as it goes no deeper than the depth? -/
def Symbolic.settledWithin : Nat → Symbolic → Bool
  | 0, _ => false
  | depth + 1, s => decide s.Settled && s.operands.all (settledWithin depth)

theorem Symbolic.settled_of_within {s : Symbolic} (h : s.settledWithin depth = true) :
    s.Everywhere Settled := by
  induction depth generalizing s with
  | zero => cases h
  | succ depth ih =>
    rw [settledWithin, Bool.and_eq_true, List.all_eq_true] at h
    exact .intro (of_decide_eq_true h.1) fun x hx => ih (h.2 x hx)

theorem Symbolic.Canonical.ofText_text {s : Symbolic} (h : Canonical s)
    (hnames : s.Formed (Token.IsName .equation) (Token.IsName .equation)) : ofText s.text = .ok s := by
  have hfirm := h.firmWithin (writingCost_lt_depthFor s)
  rw [(read_text hnames hfirm).2, h.symbolic_source]

/-- If all that is written is firm, the text of a simplified expression is read as what it is
written for. If the tree is tidy and settled as well, it is read as this tree, and simplifying the
text again changes nothing. -/
theorem simplified_text_keeps_grouping (h : Expr.parse .equation code = .ok e)
    (hfirm : Symbolic.FirmWithin (Symbolic.depthFor e.symbolic.size) e.symbolic) :
    simplify code = .ok e.symbolic.text ∧
      (Expr.parse .equation e.symbolic.text).map Expr.eraseSpans = .ok e.symbolic.source ∧
      Symbolic.ofText e.symbolic.text = .ok e.symbolic.source.symbolic ∧
      (e.symbolic.Everywhere Symbolic.Tidy → e.symbolic.Everywhere Symbolic.Settled →
        Symbolic.ofText e.symbolic.text = .ok e.symbolic ∧
          simplify e.symbolic.text = .ok e.symbolic.text) := by
  have hlegible := Expr.legible_of_parse h
  obtain ⟨hsource, htext⟩ := Symbolic.read_text hlegible.formed hfirm
  refine ⟨simplify_eq_ok h, hsource, htext, fun htidy hsettled => ?_⟩
  have hquoted : e.symbolic.Formed Symbolic.Unquoted Symbolic.Unquoted :=
    (hlegible.imp fun _ _ hx => hx.unquoted).formed
  have hcanonical : e.symbolic.Canonical :=
    ⟨⟨htidy, hquoted⟩, Symbolic.everywhere_fixed e.built, hsettled⟩
  have hread := hcanonical.ofText_text hlegible.formed
  refine ⟨hread, ?_⟩
  simp only [simplify, hread, ok_bind]
  rfl

/-- A root, a quotient with two divisors, a difference and a connective. -/
theorem simplified_text_keeps_grouping_mixed :
    ∃ e, Expr.parse .equation "sqrt(a) + 3 - 2*(a or b)/c**2/d < a % b and not p" = .ok e ∧
      Symbolic.FirmWithin (Symbolic.depthFor e.symbolic.size) e.symbolic ∧
      e.symbolic.Everywhere Symbolic.Tidy ∧ e.symbolic.Everywhere Symbolic.Settled ∧
      e.symbolic.text = "sqrt(a) - 2*(a or b)/(c**2*d) + 3 < a % b and not p" ∧
      Symbolic.ofText e.symbolic.text = .ok e.symbolic := by
  have hall : (Expr.parse .equation
      "sqrt(a) + 3 - 2*(a or b)/c**2/d < a % b and not p").map (fun e =>
        decide (Symbolic.FirmWithin (Symbolic.depthFor e.symbolic.size) e.symbolic ∧
          e.raisableWithin 8 = true ∧ e.symbolic.settledWithin 8 = true ∧ e.symbolic.text =
            "sqrt(a) - 2*(a or b)/(c**2*d) + 3 < a % b and not p")) = .ok true := by
    decide +kernel
  obtain ⟨e, he, hall⟩ := map_eq_ok.1 hall
  obtain ⟨hfirm, hraisable, hsettled, htext⟩ := of_decide_eq_true hall
  have htidy := (Expr.plain_of_parse he (Expr.raisable_of_within hraisable)).neat.everywhere
  have hsettled := Symbolic.settled_of_within hsettled
  have hstays := (simplified_text_keeps_grouping he hfirm).2.2.2 htidy hsettled
  exact ⟨e, he, hfirm, htidy, hsettled, htext, hstays.1⟩

/-- A coefficient of two sums is written before the first of them, and goes to its terms when the
text is read. So a tree that is not settled may be read as another tree of the same value. -/
example : simplify "(a + b)*(c + d)*2" = .ok "2*(a + b)*(c + d)" ∧
    simplify "2*(a + b)*(c + d)" = .ok "(2*a + 2*b)*(c + d)" := by
  decide +kernel

/-- The first term of a sum has no parentheses, so that the text is read as another tree, or is not
read at all. -/
theorem simplified_sum_loses_grouping :
    simplify "(a or b) + 1" = .ok "a or b + 1" ∧
      (Symbolic.ofText "(a or b) + 1").map Symbolic.constructorText =
        .ok "Add(Integer(1), Or(Symbol('a'), Symbol('b')))" ∧
      (Symbolic.ofText "a or b + 1").map Symbolic.constructorText =
        .ok "Or(Symbol('a'), Add(Integer(1), Symbol('b')))" ∧
      simplify "c < ((not a) + 1)" = .ok "c < not a + 1" ∧
      (Symbolic.ofText "c < not a + 1").toOption.isNone := by
  decide +kernel

end Formulae
