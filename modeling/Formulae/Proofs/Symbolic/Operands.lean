import Formulae.Proofs.Symbolic.Ending

namespace Formulae.Symbolic
set_option autoImplicit true

/-- The trees that a node is made of. -/
def operands : Symbolic → List Symbolic
  | number _ | truth _ | symbol _ => []
  | sum xs | product xs | call _ xs | logical _ xs => xs
  | power x y | remainder x y | relation _ x y => [x, y]
  | negation x => [x]

variable {P : Symbolic → Prop}

namespace Passed

variable (hP : Passed P)

include hP

theorem likeTerms {xs : List Symbolic} (hxs : ∀ x ∈ xs, P x) : ∀ t ∈ likeTerms xs, P t.1 :=
  fun t ht => hP.collectedTerms
    (fun x hx => hP.termsOfList hxs x (List.mem_reverse.1 hx)) t (List.mem_filter.1 ht).1

theorem likeBases {xs : List Symbolic} (hxs : ∀ x ∈ xs, P x) :
    ∀ p ∈ likeBases xs, P p.1 ∧ ∀ e ∈ p.2, P e :=
  hP.collectedPowers fun x hx => hP.factorsOfList hxs x (List.mem_reverse.1 hx)

end Passed

namespace Call

def operands : Call → List Symbolic
  | add xs | mul xs => xs
  | pow b e => [b, e]

theorem operands_productCalls (hP : Passed P) {ps : List Symbolic} (hps : ∀ p ∈ ps, P p)
    (hresult : ∀ c ∈ productCalls k ps, (∀ x ∈ c.operands, P x) → P c.result) :
    ∀ c ∈ productCalls k ps, ∀ x ∈ c.operands, P x := by
  unfold productCalls at hresult ⊢
  split
  · rw [List.forall_mem_singleton, operands, List.forall_mem_append, List.forall_mem_singleton]
    exact ⟨hps, hP.number⟩
  · next hany =>
    rw [if_neg hany] at hresult
    split
    · next xs =>
      dsimp only at hresult
      split
      · next hk =>
        have hxs := hP.sum (hps _ List.mem_cons_self)
        have hterm x (hx : x ∈ xs) : ∀ y ∈ (mul [number k, x]).operands, P y :=
          List.forall_mem_cons.2 ⟨hP.number, List.forall_mem_singleton.2 (hxs x hx)⟩
        simp only [if_pos hk, List.forall_mem_append, List.forall_mem_map,
          List.forall_mem_singleton] at hresult ⊢
        exact ⟨hterm, List.forall_mem_map.2 fun x hx => hresult.1 x hx (hterm x hx)⟩
      · simp
    · simp

/-- The operands of the calls that are made have the property, if what is given for such operands
does. -/
theorem operands_next (hP : Passed P) {c : Call} (hc : ∀ x ∈ c.operands, P x)
    (hresult : ∀ c' ∈ c.next, (∀ x ∈ c'.operands, P x) → P c'.result) :
    ∀ c' ∈ c.next, ∀ x ∈ c'.operands, P x := by
  cases c with
  | add xs =>
    rw [next, List.forall_mem_map]
    intro t ht
    have hterm := hP.likeTerms hc t (List.mem_filter.1 ht).1
    exact List.forall_mem_cons.2 ⟨hP.number, List.forall_mem_singleton.2 hterm⟩
  | mul xs =>
    have hbases := hP.likeBases hc
    rw [next] at hresult ⊢
    split
    · simp
    · next hzero =>
      simp only [if_neg hzero, List.forall_mem_append, List.forall_mem_map] at hresult ⊢
      obtain ⟨⟨hadd, hpow⟩, hproduct⟩ := hresult
      have hpowOperands p (hp : p ∈ likeBases xs) :
          ∀ x ∈ (pow p.1 (Symbolic.add p.2)).operands, P x :=
        List.forall_mem_cons.2 ⟨(hbases p hp).1,
          List.forall_mem_singleton.2 (hadd p hp (hbases p hp).2)⟩
      have hpowers : ∀ p ∈ others (powers xs), P p := by
        intro p hp
        obtain ⟨q, hq, rfl⟩ := List.mem_map.1 (mem_of_mem_others hp)
        exact hpow q hq (hpowOperands q hq)
      exact ⟨⟨fun p hp => (hbases p hp).2, hpowOperands⟩,
        operands_productCalls hP hpowers hproduct⟩
  | pow b e =>
    simp only [operands, List.forall_mem_cons] at hc
    obtain ⟨hb, he, -⟩ := hc
    rw [next] at hresult ⊢
    split
    · simp
    · next hplain =>
    rw [if_neg hplain] at hresult
    split
    · next hwhole =>
      rw [if_pos hwhole] at hresult
      cases b with
      | power b f =>
        obtain ⟨hb, hf⟩ := hP.power hb
        have hmul : ∀ x ∈ (mul [f, e]).operands, P x :=
          List.forall_mem_cons.2 ⟨hf, List.forall_mem_singleton.2 he⟩
        simp only [openedCalls, List.forall_mem_cons] at hresult ⊢
        refine ⟨hmul, List.forall_mem_cons.2 ⟨hb, ?_⟩, by simp⟩
        exact List.forall_mem_singleton.2 (hresult.1 hmul)
      | product xs =>
        have hxs := hP.product hb
        have hpow x (hx : x ∈ xs) : ∀ y ∈ (pow x e).operands, P y :=
          List.forall_mem_cons.2 ⟨hxs x hx, List.forall_mem_singleton.2 he⟩
        simp only [openedCalls, List.forall_mem_append, List.forall_mem_map,
          List.forall_mem_singleton] at hresult ⊢
        exact ⟨hpow, List.forall_mem_map.2 fun x hx => hresult.1 x hx (hpow x hx)⟩
      | _ => simp [openedCalls]
    · simp

/-- The node that a call puts together itself, if it gives no number, operand or other result. -/
inductive Forms : Call → Symbolic → Prop
  | sum : 2 ≤ (withConstant (constant xs) ((likeTerms xs).map scaled)).length →
      Forms (add xs) (.sum (sorted (withConstant (constant xs) ((likeTerms xs).map scaled))))
  | product : (coefficient xs == 0) = false → (others (powers xs)).any isProduct = false →
      (∀ ts, others (powers xs) ≠ [.sum ts]) →
      2 ≤ (withCoefficient (fullCoefficient xs) (others (powers xs))).length →
      Forms (mul xs) (.product (withCoefficient (fullCoefficient xs) (others (powers xs))))
  | power : isPlainPower b e = false → powerStep b e = .power b e → Forms (pow b e) (.power b e)

theorem forall_mem_scaled (hP : Passed P) {xs : List Symbolic} (hxs : ∀ x ∈ xs, P x)
    (hnext : ∀ c ∈ (add xs).next, P c.result) : ∀ s ∈ (likeTerms xs).map scaled, P s := by
  rw [List.forall_mem_map]
  intro t ht
  unfold scaled
  split
  · exact hP.likeTerms hxs t ht
  · next hc => exact hnext _ (mem_next_add ht hc)

theorem forall_mem_powers {xs : List Symbolic} (hzero : ¬(coefficient xs == 0) = true)
    (hnext : ∀ c ∈ (mul xs).next, P c.result) : ∀ p ∈ powers xs, P p := by
  simp only [next, if_neg hzero, List.forall_mem_append, List.forall_mem_map] at hnext
  exact List.forall_mem_map.2 hnext.1.2

theorem productStep_of_forms (hP : Passed P) {ps : List Symbolic} (hps : ∀ p ∈ ps, P p)
    (hnext : ∀ c ∈ productCalls k ps, P c.result)
    (hforms : ps.any isProduct = false → (∀ ts, ps ≠ [.sum ts]) →
      2 ≤ (withCoefficient k ps).length → P (.product (withCoefficient k ps))) :
    P (productStep k ps) := by
  unfold productCalls at hnext
  unfold productStep
  split
  · next hany =>
    rw [if_pos hany, List.forall_mem_singleton] at hnext
    exact hnext
  · next hany =>
    rw [if_neg hany] at hnext
    split
    · exact hP.number
    · next xs =>
      dsimp only at hnext
      split
      · next hk =>
        rw [if_pos hk, List.forall_mem_append, List.forall_mem_singleton] at hnext
        exact hnext.2
      · exact hps _ List.mem_cons_self
    · next hne hsum =>
      have hall := forall_mem_withCoefficient (k := k) hP.number hps
      rcases productOf_cases k hne with ⟨x, hx, hproduct⟩ | ⟨hlen, hproduct⟩
      · rw [hproduct]
        exact hall x (hx ▸ List.mem_cons_self)
      · rw [hproduct]
        exact hforms (Bool.eq_false_iff.2 hany) hsum hlen

theorem powerStep_of_plain {b e : Symbolic} (h : isPlainPower b e = true) :
    powerStep b e = number 1 ∨ powerStep b e = b := by
  unfold powerStep
  split
  · exact .inl rfl
  · next hzero =>
  split
  · exact .inr rfl
  · next hone =>
    exact .inl (if_pos (by simpa [isPlainPower, hzero, hone] using h))

theorem powerStep_of_not_plain {b e : Symbolic} (h : isPlainPower b e = false) :
    powerStep b e = properPower b e := by
  simp only [isPlainPower, Bool.or_eq_false_iff] at h
  simp [powerStep, h]

theorem properPower_cases (b e : Symbolic) : (∃ x, properPower b e = number x) ∨
    properPower b e = .power b e ∨ e.isWhole = true ∧
      ∃ c ∈ openedCalls e b, properPower b e = c.result := by
  unfold properPower
  split
  · next x n =>
    unfold numberPower
    split
    · exact .inl ⟨_, rfl⟩
    · exact .inr (.inl rfl)
  split
  · next hwhole =>
    cases b with
    | power b f => exact .inr (.inr ⟨hwhole, .pow b (.mul [f, e]), by simp [openedCalls], rfl⟩)
    | product xs =>
      exact .inr (.inr ⟨hwhole, .mul (xs.map fun x => .pow x e), by simp [openedCalls], rfl⟩)
    | _ => exact .inr (.inl rfl)
  · exact .inr (.inl rfl)

/-- What a step gives has the property, if the operands and the results of the calls made have it,
and the node that is put together. -/
theorem step_of_forms (hP : Passed P) {c : Call} (hc : ∀ x ∈ c.operands, P x)
    (hnext : ∀ c' ∈ c.next, P c'.result) (hforms : ∀ s, c.Forms s → P s) : P c.step := by
  cases c with
  | add xs =>
    have hscaled := forall_mem_scaled hP hc hnext
    have hall := forall_mem_withConstant (c := constant xs) hP.number hscaled
    rw [step]
    rcases sumOf_cases (constant xs) ((likeTerms xs).map scaled) with ⟨x, hx, hsum⟩ | ⟨hlen, hsum⟩
    · rw [hsum]
      exact hall x (hx ▸ List.mem_cons_self)
    · rw [hsum]
      exact hforms _ (.sum hlen)
  | mul xs =>
    rw [step]
    split
    · exact hP.number
    · next hzero =>
      have hpowers := forall_mem_powers hzero hnext
      simp only [next, if_neg hzero, List.forall_mem_append] at hnext
      exact productStep_of_forms hP (fun p hp => hpowers p (mem_of_mem_others hp)) hnext.2
        fun hany hsum hlen => hforms _ (.product (Bool.eq_false_iff.2 hzero) hany hsum hlen)
  | pow b e =>
    simp only [operands, List.forall_mem_cons] at hc
    rw [step]
    cases hplain : isPlainPower b e with
    | true =>
      rcases powerStep_of_plain hplain with h | h <;> rw [h]
      · exact hP.number
      · exact hc.1
    | false =>
      have hproper := powerStep_of_not_plain hplain
      rw [hproper]
      rcases properPower_cases b e with ⟨x, h⟩ | h | ⟨hwhole, c', hc', h⟩ <;> rw [h]
      · exact hP.number
      · exact hforms _ (.power hplain (hproper.trans h))
      · apply hnext c'
        rw [next, hplain, if_pos hwhole]
        exact hc'

/-- The operands of the node that is put together have the property. -/
theorem Forms.operands (hP : Passed P) {c : Call} (h : c.Forms s) (hc : ∀ x ∈ c.operands, P x)
    (hnext : ∀ c' ∈ c.next, P c'.result) : ∀ x ∈ s.operands, P x := by
  cases h with
  | sum =>
    intro x hx
    exact forall_mem_withConstant hP.number (forall_mem_scaled hP hc hnext) x (mem_sorted.1 hx)
  | product hzero =>
    have hpowers := forall_mem_powers (Bool.eq_false_iff.1 hzero) hnext
    exact forall_mem_withCoefficient hP.number fun p hp => hpowers p (mem_of_mem_others hp)
  | power => exact hc

/-- By induction on the calls: the property passes to what an operation gives, if it passes to the
nodes that are put together. -/
theorem result_of_forms (hP : Passed P)
    (hforms : ∀ c s, (∀ x ∈ c.operands, P x) → (∀ c' ∈ c.next, P c'.result) →
      Forms c s → (∀ x ∈ s.operands, P x) → P s) (c : Call) (hc : ∀ x ∈ c.operands, P x) :
    P c.result := by
  induction c using Call.induct with
  | h c ih =>
    have hnext : ∀ c' ∈ c.next, P c'.result :=
      fun c' hc' => ih c' hc' (operands_next hP hc ih c' hc')
    rw [result_eq_step]
    exact step_of_forms hP hc hnext fun s hs => hforms c s hc hnext hs (hs.operands hP hc hnext)

end Call

/-- A property of numbers that sums, products and powers have exactly if their operands do. A sum
without a term may have it or not. -/
structure Hereditary (P : Symbolic → Prop) : Prop where
  number : P (number x)
  sum : xs ≠ [] → (P (sum xs) ↔ ∀ x ∈ xs, P x)
  product : P (product xs) ↔ ∀ x ∈ xs, P x
  power : P (power b e) ↔ P b ∧ P e

namespace Hereditary

theorem passed (h : Hereditary P) : Passed P where
  number := h.number
  sum hsum x hx := (h.sum (List.ne_nil_of_mem hx)).1 hsum x hx
  product := h.product.1
  power := h.power.1
  rest _ hx := h.product.2 fun x hmem => h.product.1 hx x (List.mem_cons_of_mem _ hmem)

variable (h : Hereditary P)

include h

theorem result (c : Call) (hc : ∀ x ∈ c.operands, P x) : P c.result := by
  refine Call.result_of_forms h.passed (fun c s _ _ hforms hs => ?_) c hc
  cases hforms with
  | sum hlen =>
    obtain ⟨x, hx⟩ := List.exists_mem_of_length_pos (Nat.zero_lt_two.trans_le hlen)
    exact (h.sum (List.ne_nil_of_mem (mem_sorted.2 hx))).2 hs
  | product => exact h.product.2 hs
  | power => exact h.power.2 (by simpa [operands] using hs)

theorem add {xs : List Symbolic} (hxs : ∀ x ∈ xs, P x) : P (add xs) := h.result (.add xs) hxs

theorem mul {xs : List Symbolic} (hxs : ∀ x ∈ xs, P x) : P (mul xs) := h.result (.mul xs) hxs

theorem pow (hb : P b) (he : P e) : P (pow b e) :=
  h.result (.pow b e) (by simpa [Call.operands] using ⟨hb, he⟩)

theorem neg (hx : P x) : P (neg x) :=
  h.mul (by simpa using ⟨h.number, hx⟩)

theorem sub (hx : P x) (hy : P y) : P (sub x y) :=
  h.add (by simpa using ⟨hx, h.neg hy⟩)

theorem div (hx : P x) (hy : P y) : P (div x y) :=
  h.mul (by simpa using ⟨hx, h.pow hy h.number⟩)

end Hereditary

end Formulae.Symbolic
