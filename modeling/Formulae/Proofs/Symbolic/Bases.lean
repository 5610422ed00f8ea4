import Formulae.Proofs.Symbolic.Tidy

namespace Formulae.Symbolic
set_option autoImplicit true

/-- Neither a number nor a power nor a product. -/
def isBare (s : Symbolic) : Bool := !s.isNumber && !s.isPower && !s.isProduct

/-- Bare, or the inverse of a bare tree. -/
def isBareFactor : Symbolic → Bool
  | power b e => b.isBare && e.isValue (-1)
  | s => s.isBare

/-- Bare, or a product or quotient of bare trees. -/
def isBase : Symbolic → Bool
  | product xs => xs.all isBareFactor
  | s => s.isBare

/-- A number to the power of a number, if that is finite. -/
def folds : Symbolic → Symbolic → Bool
  | number x, number n => (x.pow n).isFinite
  | _, _ => false

/-- What may be raised: a base to anything, a number if that gives a number, and else a power or
product to a whole number, which goes to the exponent or to the factors. -/
def isRaisable (b e : Symbolic) : Bool :=
  b.isBase || folds b e || e.isWhole && b.factors.all fun x => !x.isNumber || folds x e

theorem isRaisable_of_isBase {b : Symbolic} (h : b.isBase = true) (e : Symbolic) :
    isRaisable b e = true := by
  simp [isRaisable, h]

theorem isBare_eq_true {b : Symbolic} : b.isBare = true ↔
    b.isNumber = false ∧ b.isPower = false ∧ b.isProduct = false := by
  simp [isBare, and_assoc]

theorem opened_bare {b : Symbolic} (h : b.isBare = true) (e : Symbolic) :
    opened e b = power b e := by
  cases b with
  | number | power | product => cases h
  | _ => rfl

theorem pow_bare {b e : Symbolic} (h : b.isBare = true) (hzero : e.isValue 0 = false)
    (hone : e.isValue 1 = false) : pow b e = power b e := by
  rw [pow_of_proper (isBare_eq_true.1 h).1 hzero hone, opened_bare h, ite_self]

/-- The tree or its power with a number that is neither zero nor one. -/
def NumberPower (b y : Symbolic) : Prop :=
  y = b ∨ ∃ k, (k == 0) = false ∧ (k == 1) = false ∧ y = power b (number k)

theorem numberPower_pow {b : Symbolic} (h : b.isBare = true) (hzero : (k == 0) = false) :
    NumberPower b (pow b (number k)) := by
  cases hone : k == 1 with
  | true => exact .inl (by rw [Number.eq_one_of_beq hone, pow_one])
  | false => exact .inr ⟨k, hzero, hone, pow_bare (e := number k) h hzero hone⟩

namespace NumberPower

variable {b y : Symbolic} (h : NumberPower b y) (hb : b.isBare = true)

include h hb

theorem isNumber : y.isNumber = false := by
  rcases h with rfl | ⟨k, -, -, rfl⟩
  · exact (isBare_eq_true.1 hb).1
  · rfl

theorem isProduct : y.isProduct = false := by
  rcases h with rfl | ⟨k, -, -, rfl⟩
  · exact (isBare_eq_true.1 hb).2.2
  · rfl

theorem base_eq : y.base = b := by
  rcases h with rfl | ⟨k, -, -, rfl⟩
  · exact base_eq_self (isBare_eq_true.1 hb).2.1
  · rfl

theorem raised_eq : raised y.splitPower = y := by
  rcases h with rfl | ⟨k, hzero, hone, rfl⟩
  · have hsplit : y.splitPower = (y, [number 1]) := by
      cases y with
      | power => cases hb
      | _ => rfl
    rw [hsplit, raised_one]
  · change pow b (add [number k]) = power b (number k)
    rw [add_number hzero, pow_bare (e := number k) hb hzero hone]

end NumberPower

theorem mul_neg_one_number (n : Float) (h : (n == 0) = false) :
    mul [number (-1), number n] = number (-n) := by
  have hcoefficient : coefficient [number (-1), number n] = -n := by
    change 1 * n * -1 = -n
    rw [Number.one_times, Number.times_comm, Number.neg_one_times]
  have hzero : (-n == 0) = false := by rw [Number.neg_beq_zero, h]
  rw [mul_of_fixed List.Pairwise.nil (by simp [factorsOfList, factors, others, isNumber, number?])
    (by rw [hcoefficient, hzero]), hcoefficient]
  rfl

theorem eq_neg_one_of_isValue {e : Symbolic} (h : e.isValue (-1) = true) : e = number (-1) := by
  have hone : (-1 : Float).toModel.unpack = .finite .negative (2 ^ 52) (-52) (by decide) := by rfl
  cases e with
  | number x => rw [Number.eq_of_beq_finite h hone]
  | _ => cases h

/-- A factor of a base keeps its own base. -/
theorem numberPower_factor {t : Symbolic} (h : t.isBareFactor = true)
    (hwhole : (number n).isWhole = true) (hzero : (n == 0) = false) (hone : (n == 1) = false) :
    t.base.isBare = true ∧ NumberPower t.base (pow t (number n)) := by
  cases t with
  | power b e =>
    obtain ⟨hb, he⟩ := Bool.and_eq_true_iff.1 h
    cases eq_neg_one_of_isValue he
    have hpow : pow (power b (number (-1))) (number n) = pow b (number (-n)) := by
      rw [pow_of_proper (e := number n) rfl hzero hone, if_pos hwhole, opened,
        mul_neg_one_number n hzero]
    rw [hpow]
    exact ⟨hb, numberPower_pow hb (by rw [Number.neg_beq_zero, hzero])⟩
  | number | product => cases h
  | _ => exact ⟨h, numberPower_pow h hzero⟩

/-- Two factors or more that stay as they are and have different bases make a product. -/
theorem isProduct_mul {ys : List Symbolic} (hlen : 2 ≤ ys.length)
    (hnumbers : ∀ y ∈ ys, y.isNumber = false) (hproducts : ∀ y ∈ ys, y.isProduct = false)
    (hbases : ys.Pairwise fun x y => (x.base == y.base) = false)
    (hraised : ∀ y ∈ ys, raised y.splitPower = y) : (mul ys).isProduct = true := by
  have hfactors : factorsOfList ys = ys := factorsOfList_eq_self hproducts
  have hreverse : ∀ y ∈ ys.reverse, y.isNumber = false := by simpa using hnumbers
  have hcoefficient : coefficient ys = 1 := by
    rw [coefficient, hfactors, foldNumbers_of_others hreverse]
  have hmul : mul ys = productStep 1 ys.reverse := by
    rw [mul_of_fixed, hcoefficient, hfactors, others_eq_self hreverse]
    · rwa [hfactors, others_eq_self hnumbers]
    · rwa [hfactors, others_eq_self hnumbers]
    · rw [hcoefficient, one_beq_zero]
  have hany : ys.reverse.any isProduct = false :=
    List.any_eq_false.2 fun y hy => Bool.eq_false_iff.1 (hproducts y (List.mem_reverse.1 hy))
  have hlen : 2 ≤ ys.reverse.length := by rwa [List.length_reverse]
  have hne : ys.reverse ≠ [] := List.ne_nil_of_length_pos (Nat.zero_lt_two.trans_le hlen)
  rw [hmul, productStep_two hany hlen]
  rcases productOf_cases 1 hne with ⟨x, hx, -⟩ | ⟨-, hproduct⟩
  · rw [withCoefficient_one] at hx
    have hone := (sorted_perm ys.reverse).length_eq
    rw [hx, List.length_singleton] at hone
    omega
  · rw [hproduct]
    rfl

/-- The whole powers of a product that is a base are products. -/
theorem isProduct_pow {xs : List Symbolic} (hs : Tidy (product xs))
    (hbase : (product xs).isBase = true) (hwhole : e.isWhole = true) :
    pow (product xs) e = number 1 ∨ (pow (product xs) e).isProduct = true := by
  rcases pow_plain_or (product xs) e with hpow | hpow | ⟨hzero, hone⟩
  · exact .inl hpow
  · exact .inr (by rw [hpow]; rfl)
  cases e with
  | number n =>
    have hpow : pow (product xs) (number n) = mul (xs.map fun x => pow x (number n)) := by
      rw [pow_of_proper rfl hzero hone, if_pos hwhole, opened]
    have hfactor x (hx : x ∈ xs) :=
      numberPower_factor (List.all_eq_true.1 hbase x hx) hwhole hzero hone
    obtain ⟨hlen, -⟩ := hs.1
    have hothers : ∀ x ∈ xs, x.isNumber = false := fun x hx => by
      have hx := List.all_eq_true.1 hbase x hx
      cases x with
      | number => cases hx
      | _ => rfl
    have hbases := hs.2.2.1
    rw [others_eq_self hothers] at hbases
    refine .inr ?_
    rw [hpow]
    apply isProduct_mul
    · rwa [List.length_map]
    · exact List.forall_mem_map.2 fun x hx => (hfactor x hx).2.isNumber (hfactor x hx).1
    · exact List.forall_mem_map.2 fun x hx => (hfactor x hx).2.isProduct (hfactor x hx).1
    · rw [List.pairwise_map]
      refine hbases.imp_of_mem fun {x y} hx hy hne => ?_
      rw [(hfactor x hx).2.base_eq (hfactor x hx).1, (hfactor y hy).2.base_eq (hfactor y hy).1, hne]
    · exact List.forall_mem_map.2 fun x hx => (hfactor x hx).2.raised_eq (hfactor x hx).1
  | _ => cases hwhole

theorem isBase_cases {b : Symbolic} (h : b.isBase = true) :
    b.isBare = true ∨ ∃ xs, b = product xs := by
  cases b with
  | product xs => exact .inr ⟨xs, rfl⟩
  | _ => exact .inl h

/-- A base is kept, unless its power is a product. -/
theorem keepsBase (hbase : p.1.isBase = true) (hs : Tidy p.1)
    (hproduct : (raised p).isProduct = false) : KeepsBase p := by
  obtain ⟨b, es⟩ := p
  have hkinds : b.isNumber = false ∧ b.isPower = false := by
    rcases isBase_cases hbase with hb | ⟨xs, rfl⟩
    · exact ⟨(isBare_eq_true.1 hb).1, (isBare_eq_true.1 hb).2.1⟩
    · exact ⟨rfl, rfl⟩
  rcases pow_plain_or b (add es) with hpow | hpow | ⟨hzero, hone⟩
  · exact .inl hpow
  · exact .inr ⟨by rw [raised, hpow, hkinds.1], by rw [raised, hpow, base_eq_self hkinds.2]⟩
  have hpower (h : raised (b, es) = power b (add es)) : KeepsBase (b, es) :=
    .inr ⟨by rw [h]; rfl, by rw [h]; rfl⟩
  rcases isBase_cases hbase with hb | ⟨xs, rfl⟩
  · exact hpower (pow_bare hb hzero hone)
  cases hwhole : (add es).isWhole with
  | true =>
    rcases isProduct_pow hs hbase hwhole with hpow | hpow
    · exact .inl hpow
    · rw [raised, hpow] at hproduct
      cases hproduct
  | false =>
    refine hpower ?_
    rw [raised, pow_of_proper rfl hzero hone, hwhole, if_neg Bool.false_ne_true]

/-- What is raised in a node is a base. -/
def HasBase : Symbolic → Prop
  | power b _ => b.isBase = true
  | _ => True

/-- Tidy, and only a base is raised. -/
structure Based (s : Symbolic) : Prop where
  tidy : Tidy s
  base : HasBase s

/-- Based everywhere, with names that may stand between quotes. -/
structure Plain (s : Symbolic) : Prop where
  everywhere : Everywhere Based s
  formed : s.Formed Unquoted Unquoted

theorem Plain.neat {s : Symbolic} (h : s.Plain) : s.Neat :=
  ⟨h.everywhere.mono fun _ hs => hs.tidy, h.formed⟩

theorem Plain.operand {s : Symbolic} (h : s.Plain) : ∀ x ∈ s.operands, x.Plain :=
  fun x hx => ⟨h.everywhere.operand x hx, h.formed.operand x hx⟩

theorem passed_plain : Passed Plain where
  number := ⟨.leaf ⟨⟨trivial, trivial⟩, trivial⟩ rfl, .number⟩
  sum h := h.operand
  product h := h.operand
  power h := by simpa [operands] using h.operand
  rest hne h := ⟨.intro ⟨h.everywhere.node.tidy.rest hne, trivial⟩ fun x hx =>
    h.everywhere.operand x (List.mem_cons_of_mem _ hx), .product fun x hx =>
      h.formed.operand x (List.mem_cons_of_mem _ hx)⟩

theorem isBase_splitPower {x : Symbolic} (hx : HasBase x) (hnumber : x.isNumber = false)
    (hproduct : x.isProduct = false) : x.base.isBase = true := by
  cases x with
  | power b e => exact hx
  | number => cases hnumber
  | product => cases hproduct
  | _ => rfl

theorem isBase_of_mem_likeBases (hxs : ∀ x ∈ xs, Plain x) (hp : p ∈ likeBases xs) :
    p.1.isBase = true := by
  refine collect_forall (Q := fun p => p.1.isBase = true) ?_ ?_ p hp
  · exact fun hb _ => hb
  refine List.forall_mem_map.2 fun x hx => ?_
  have hmem := List.mem_reverse.1 (mem_of_mem_others hx)
  exact isBase_splitPower (passed_plain.factorsOfList hxs x hmem).everywhere.node.base
    (isNumber_of_mem_others hx) (not_product_of_mem_factorsOfList hmem)

namespace Call

/-- Is what is raised raisable? -/
def Raisable : Call → Prop
  | pow b e => isRaisable b e = true
  | add _ | mul _ => True

theorem raisable_productCalls : ∀ c ∈ productCalls k ps, c.Raisable := by
  unfold productCalls
  split
  · simp [Raisable]
  · split
    · split
      · simp only [List.forall_mem_append, List.forall_mem_map, List.forall_mem_singleton]
        exact ⟨fun _ _ => trivial, trivial⟩
      · simp
    · simp

/-- All numbers among the factors become numbers again. -/
theorem folds_of_mem {xs : List Symbolic} (hs : Shape (.product xs))
    (h : isRaisable (.product xs) e = true) (hx : x ∈ xs) :
    (!x.isNumber || folds x e) = true := by
  simp only [isRaisable, Bool.or_eq_true, Bool.and_eq_true] at h
  rcases h with (hbase | hfolds) | ⟨-, hall⟩
  · have hx := List.all_eq_true.1 hbase x hx
    cases x with
    | number => cases hx
    | _ => rfl
  · cases hfolds
  · rw [factors, factorsOfList_eq_self hs.2.1] at hall
    exact List.all_eq_true.1 hall x hx

theorem raisable_openedCalls {b e : Symbolic} (hs : Shape b) (hb : HasBase b)
    (hwhole : e.isWhole = true) (h : isRaisable b e = true) :
    ∀ c ∈ openedCalls e b, c.Raisable := by
  cases b with
  | power b f =>
    simp only [openedCalls, List.forall_mem_cons]
    exact ⟨trivial, isRaisable_of_isBase hb _, by simp⟩
  | product xs =>
    simp only [openedCalls, List.forall_mem_append, List.forall_mem_map,
      List.forall_mem_singleton]
    refine ⟨fun x hx => ?_, trivial⟩
    have hfactors : x.factors = [x] := factors_eq_self (hs.2.1 x hx)
    simp [Raisable, isRaisable, hwhole, hfactors, folds_of_mem hs h hx]
  | _ => simp [openedCalls]

/-- What is raised in the calls that a call makes is raisable, too. -/
theorem raisable_next {c : Call} (hc : ∀ x ∈ c.operands, Plain x) (h : c.Raisable) :
    ∀ c' ∈ c.next, c'.Raisable := by
  cases c with
  | add xs =>
    rw [next, List.forall_mem_map]
    exact fun _ _ => trivial
  | mul xs =>
    rw [next]
    split
    · simp
    · simp only [List.forall_mem_append, List.forall_mem_map]
      exact ⟨⟨fun _ _ => trivial,
        fun p hp => isRaisable_of_isBase (isBase_of_mem_likeBases hc hp) _⟩, raisable_productCalls⟩
  | pow b e =>
    have hb : b.Plain := hc b List.mem_cons_self
    rw [next]
    split
    · simp
    split
    · next hwhole =>
      exact raisable_openedCalls hb.neat.shape hb.everywhere.node.base hwhole h
    · simp

theorem properPower_of_folds {b e : Symbolic} (h : folds b e = true) :
    properPower b e ≠ .power b e := by
  unfold folds at h
  split at h
  · simp [properPower, numberPower, h]
  · cases h

/-- What is raised in a power that is put together is a base. -/
theorem Forms.hasBase {c : Call} (hforms : c.Forms s) (h : c.Raisable)
    (hnext : ∀ c' ∈ c.next, Plain c'.result) : HasBase s := by
  cases hforms with
  | sum | product => trivial
  | @power b e hplain hpower =>
    have hproper : properPower b e = .power b e := by rw [← powerStep_of_not_plain hplain, hpower]
    simp only [Raisable, isRaisable, Bool.or_eq_true, Bool.and_eq_true] at h
    rcases h with (hbase | hfolds) | ⟨hwhole, hall⟩
    · exact hbase
    · exact absurd hproper (properPower_of_folds hfolds)
    · -- The exponent goes to the operands of a power or product, and what that gives is plain.
      rw [next, hplain, if_neg Bool.false_ne_true, if_pos hwhole] at hnext
      cases b with
      | number x =>
        have hfolds : folds (.number x) e = true := by
          simpa [factors, isNumber, number?] using hall
        exact absurd hproper (properPower_of_folds hfolds)
      | power b f =>
        have hresult := hnext (.pow b (Symbolic.mul [f, e])) (by simp [openedCalls])
        simp only [properPower, if_pos hwhole, opened] at hproper
        rw [result, hproper] at hresult
        exact hresult.everywhere.node.base
      | product xs =>
        have hresult := hnext (.mul (xs.map fun x => Symbolic.pow x e)) (by simp [openedCalls])
        simp only [properPower, if_pos hwhole, opened] at hproper
        rw [result, hproper] at hresult
        exact hresult.everywhere.node.base
      | _ => rfl

theorem keepsBase_of_forms (hc : ∀ x ∈ xs, Plain x)
    (hproducts : (others (powers xs)).any isProduct = false) (hp : p ∈ likeBases xs) :
    KeepsBase p := by
  have hmem : raised p ∈ powers xs := List.mem_map_of_mem hp
  have hbase : p.1.Plain := (passed_plain.likeBases hc p hp).1
  refine keepsBase (isBase_of_mem_likeBases hc hp) hbase.neat.everywhere.node ?_
  cases hnumber : (raised p).isNumber with
  | true =>
    cases hraised : raised p with
    | number => rfl
    | _ => rw [hraised] at hnumber; cases hnumber
  | false =>
    have hothers : raised p ∈ others (powers xs) := List.mem_filter.2 ⟨hmem, by simp [hnumber]⟩
    exact Bool.eq_false_iff.2 (List.any_eq_false.1 hproducts _ hothers)

/-- By induction on the calls: where only what is raisable is raised, plain operands give plain
trees. -/
theorem plain_result {c : Call} (h : c.Raisable) (hc : ∀ x ∈ c.operands, Plain x) :
    Plain c.result := by
  induction c using Call.induct with
  | h c ih =>
    have hraisable := raisable_next hc h
    have hnext : ∀ c' ∈ c.next, Plain c'.result := fun c' hc' =>
      ih c' hc' (hraisable c' hc') <| operands_next passed_plain hc
        (fun c' hc' => ih c' hc' (hraisable c' hc')) c' hc'
    rw [result_eq_step]
    refine step_of_forms passed_plain hc hnext fun s hs => ?_
    have hoperands := hs.operands passed_plain hc hnext
    have hgathered : Gathered s := by
      refine hs.gathered (fun x hx => (hc x hx).neat) ?_
      rintro xs rfl hproducts p hp
      exact keepsBase_of_forms hc hproducts hp
    exact ⟨.intro ⟨⟨hs.shape, hgathered⟩, hs.hasBase h hnext⟩ fun x hx =>
      (hoperands x hx).everywhere, hs.formed fun x hx => (hoperands x hx).formed⟩

end Call

end Formulae.Symbolic
