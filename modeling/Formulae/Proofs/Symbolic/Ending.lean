import Formulae.Proofs.Symbolic.Weight

namespace Formulae.Symbolic
set_option autoImplicit true

/-- What the sum of terms weighs at most. -/
def sumWeight : List Symbolic → Nat
  | [] => 0
  | [x] => x.weight
  | xs => max 4 (termWeight xs + 2)

theorem sumWeight_le (xs : List Symbolic) : sumWeight xs ≤ max 4 (termWeight xs + 2) := by
  match xs with
  | [] => exact Nat.zero_le _
  | [x] =>
    rw [sumWeight, termWeight_eq, List.map_singleton, List.sum_singleton, termCost]
    split
    · next hx =>
      cases x with
      | number => exact Nat.zero_le _
      | _ => cases hx
    · omega
  | _ :: _ :: _ => exact Nat.le_refl _

theorem termWeight_le (xs : List Symbolic) : termWeight xs ≤ weights xs + xs.length := by
  induction xs with
  | nil => exact Nat.zero_le _
  | cons x xs ih =>
    have hx := termCost_le x
    simp only [termWeight_eq, weights, List.map_cons, List.sum_cons, List.length_cons] at ih ⊢
    omega

theorem sumWeight_le_weights (xs : List Symbolic) :
    sumWeight xs ≤ weights xs + 4 * (xs.length - 1) := by
  match xs with
  | [] => exact Nat.zero_le _
  | [x] => simp [sumWeight, weights]
  | x :: y :: xs =>
    have hle := termWeight_le (x :: y :: xs)
    simp only [sumWeight, List.length_cons] at hle ⊢
    omega

theorem weight_sumOf_le (c : Float) (xs : List Symbolic) :
    (sumOf c xs).weight ≤ max 4 (termWeight xs + 2) := by
  have hall : termWeight (withConstant c xs) = termWeight xs := by
    unfold withConstant
    split
    · rw [termWeight_append]
      rfl
    · rfl
  rw [← hall]
  rcases sumOf_cases c xs with ⟨x, hx, hsum⟩ | ⟨-, hsum⟩
  · rw [hsum, hx]
    exact sumWeight_le [x]
  · rw [hsum, weight_sum, weight_sorted]

/-- A single term that is no sum weighs no less than its like terms. -/
theorem weight_sumOf_single (hx : x.terms = [x])
    (hmul : ∀ t ∈ likeTerms [x], (scaled t).weight ≤ t.1.weight) :
    (sumOf (constant [x]) ((likeTerms [x]).map scaled)).weight ≤ x.weight := by
  have hterms : termsOfList [x] = [x] := by rw [termsOfList_eq]; simpa using hx
  cases hnumber : x.isNumber with
  | true =>
    have hlike : likeTerms [x] = [] := by
      rw [likeTerms, hterms]
      simp [others, hnumber, collect]
    rw [hlike]
    simp [sumOf]
  | false =>
    have hconstant : constant [x] = 0 := by
      rw [constant, hterms]
      cases x <;> first | rfl | cases hnumber
    have hlike : likeTerms [x] = [x.splitCoefficient].filter (·.2 != 0) := by
      rw [likeTerms, hterms]
      simp [others, hnumber, collect, combineAt]
    have hzero : ((0 : Float) != 0) = false := by decide +kernel
    rw [List.filter_cons, List.filter_nil] at hlike
    rw [hconstant]
    split at hlike <;> rw [hlike] at hmul ⊢
    · have hle := hmul _ List.mem_cons_self
      simpa [sumOf, hzero] using hle.trans (weight_splitCoefficient_le x)
    · exact Nat.zero_le _

namespace Call

/-- What the calls that a call makes have to cost less than. -/
def cost : Call → Nat
  | add xs => 2 * termWeight xs + 1
  | mul xs => 2 * weights xs + 2
  | pow b e => 2 * (b.baseWeight + e.weight) + 1

/-- What a call gives weighs no more than its operands. -/
def Fits (r : Symbolic) : Call → Prop
  | add xs => r.weight ≤ sumWeight xs
  | mul xs => r.weight ≤ weights xs
  | pow b e => r = .power b e ∨ r.weight + r.lift ≤ b.baseWeight + e.weight

/-- A power that has become a product weighs less than before. -/
theorem Fits.weight_add_le (h : Fits r (pow b e)) :
    r.weight + (if r.isProduct then 1 else 0) ≤ b.baseWeight + e.weight := by
  rcases h with rfl | h
  · exact weight_power.le
  · have hlift : (if r.isProduct then 1 else 0) ≤ r.lift := by
      cases r <;> simp [isProduct, lift]
    omega

theorem weight_mul_number_le (h : Fits (Symbolic.mul [number k, x]) (mul [number k, x])) :
    (Symbolic.mul [number k, x]).weight ≤ x.weight := by
  simpa [Fits, weights] using h

theorem weight_scaled_le {xs : List Symbolic} (h : ∀ c ∈ (add xs).next, Fits c.result c) :
    ∀ t ∈ likeTerms xs, (scaled t).weight ≤ t.1.weight := by
  intro t ht
  unfold scaled
  split
  · exact Nat.le_refl _
  · next hc =>
    exact weight_mul_number_le (h _ (mem_next_add ht hc))

theorem fits_add {xs : List Symbolic} (h : ∀ c ∈ (add xs).next, Fits c.result c) :
    Fits (add xs).step (add xs) := by
  have hmul := weight_scaled_le h
  have hscaled : termWeight ((likeTerms xs).map scaled) ≤ termWeight (termsOfList xs) := by
    refine le_trans ?_ (sum_likeTerms_le xs)
    rw [termWeight_eq, List.map_map]
    apply List.sum_le_sum
    intro t ht
    exact (termCost_le _).trans (Nat.add_le_add_right (hmul t ht) 1)
  have hsum := weight_sumOf_le (constant xs) ((likeTerms xs).map scaled)
  change (sumOf (constant xs) ((likeTerms xs).map scaled)).weight ≤ sumWeight xs
  match xs with
  | [] => exact Nat.le_refl 0
  | [x] =>
    cases x with
    | sum ys =>
      have hys := termWeight_termsOfList_le ys
      simp only [termsOfList, terms, List.append_nil] at hscaled
      change _ ≤ (Symbolic.sum ys).weight
      rw [weight_sum]
      omega
    | _ => exact weight_sumOf_single rfl hmul
  | x :: y :: xs =>
    have hxs := termWeight_termsOfList_le (x :: y :: xs)
    simp only [sumWeight]
    omega

theorem termWeight_map_mul_le {xs : List Symbolic}
    (h : ∀ x ∈ xs, Fits (Symbolic.mul [number k, x]) (mul [number k, x])) :
    termWeight (xs.map fun x => Symbolic.mul [number k, x]) ≤ termWeight xs := by
  rw [termWeight_eq, termWeight_eq, List.map_map]
  apply List.sum_le_sum
  intro x hx
  exact termCost_mono (weight_mul_number_le (h x hx))

theorem weight_le_factorWeights {ps : List Symbolic} (h : p ∈ ps) :
    p.weight ≤ factorWeights ps := by
  have hle := le_sum_of_mem (fun x => x.weight + if x.isProduct then 1 else 0) h
  rw [← factorWeights_eq] at hle
  omega

/-- A product among the factors weighs less than it counts. -/
theorem weights_lt_factorWeights {ps : List Symbolic} (h : ps.any isProduct = true) :
    weights ps < factorWeights ps := by
  obtain ⟨p, hp, hproduct⟩ := List.any_eq_true.1 h
  rw [factorWeights_eq]
  apply List.sum_lt_sum
  · exact fun x _ => Nat.le_add_right _ _
  · exact ⟨p, hp, by rw [if_pos hproduct]; exact Nat.lt_succ_self _⟩

theorem factorWeights_sorted (ps : List Symbolic) :
    factorWeights (sorted ps) = factorWeights ps := by
  rw [factorWeights_eq, factorWeights_eq]
  exact ((sorted_perm ps).map _).sum_eq

theorem weight_productOf_le {ps : List Symbolic} (hne : ps ≠ [])
    (hps : ∀ p ∈ ps, p.isNumber = false) : (productOf k ps).weight ≤ factorWeights ps := by
  have hall : factorWeights (withCoefficient k ps) = factorWeights ps := by
    rw [← factorWeights_sorted ps, withCoefficient]
    split
    · exact Nat.zero_add _
    · rfl
  rcases productOf_cases k hne with ⟨x, hx, hproduct⟩ | ⟨-, hproduct⟩
  · rw [hproduct, ← hall, hx]
    exact weight_le_factorWeights List.mem_cons_self
  · obtain ⟨p, hp⟩ := List.exists_mem_of_ne_nil _ hne
    have hfour := four_le_weight (hps p hp)
    have hle := weight_le_factorWeights hp
    rw [hproduct, weight_product, hall]
    omega

theorem weights_append_number (ps : List Symbolic) (k : Float) :
    weights (ps ++ [number k]) = weights ps := by
  simp [weights]

theorem cost_of_mem_productCalls {ps : List Symbolic}
    (h : ∀ c : Call, c.cost < 2 * factorWeights ps + 2 → Fits c.result c) :
    ∀ c ∈ productCalls k ps, c.cost < 2 * factorWeights ps + 2 := by
  unfold productCalls
  split
  · next hany =>
    have hlt := weights_lt_factorWeights hany
    rw [List.forall_mem_singleton, cost, weights_append_number]
    omega
  · split
    · next xs _ =>
      have hle := weight_le_factorWeights (List.mem_singleton_self (Symbolic.sum xs))
      have hterm x (hx : x ∈ xs) :
          (mul [number k, x]).cost < 2 * factorWeights [Symbolic.sum xs] + 2 := by
        have hlt := weight_lt_sum hx
        simp only [cost, weights, List.map_cons, List.map_nil, List.sum_cons, List.sum_nil,
          weight_number]
        omega
      split
      · have hsum := termWeight_map_mul_le fun x hx => h _ (hterm x hx)
        rw [weight_sum] at hle
        simp only [List.forall_mem_append, List.forall_mem_map, List.forall_mem_singleton]
        refine ⟨hterm, ?_⟩
        rw [cost]
        omega
      · simp
    · simp

theorem weight_productStep_le {ps : List Symbolic} (hps : ∀ p ∈ ps, p.isNumber = false)
    (h : ∀ c ∈ productCalls k ps, Fits c.result c) :
    (productStep k ps).weight ≤ factorWeights ps := by
  unfold productCalls at h
  unfold productStep
  split
  · next hany =>
    rw [if_pos hany, List.forall_mem_singleton] at h
    have hlt := weights_lt_factorWeights hany
    have hle : _ ≤ weights (ps ++ [number k]) := h
    rw [weights_append_number] at hle
    exact hle.trans hlt.le
  · next hany =>
    rw [if_neg hany] at h
    split
    · exact Nat.zero_le _
    · next xs =>
      refine le_trans ?_ (weight_le_factorWeights (List.mem_singleton_self (Symbolic.sum xs)))
      dsimp only at h
      split
      · next hk =>
        simp only [if_pos hk, List.forall_mem_append, List.forall_mem_map,
          List.forall_mem_singleton] at h
        have hsum := termWeight_map_mul_le h.1
        have hle : _ ≤ sumWeight _ := h.2
        have hle := hle.trans (sumWeight_le _)
        rw [weight_sum]
        exact hle.trans (by omega)
      · exact Nat.le_refl _
    · next hne _ => exact weight_productOf_le hne hps

theorem factorWeights_powers_le {xs : List Symbolic}
    (hadd : ∀ p ∈ likeBases xs, Fits (Symbolic.add p.2) (add p.2))
    (hpow : ∀ p ∈ likeBases xs, Fits (raised p) (pow p.1 (Symbolic.add p.2))) :
    factorWeights (others (powers xs)) ≤ weights xs := by
  rw [factorWeights_eq]
  calc ((others (powers xs)).map fun x => x.weight + if x.isProduct then 1 else 0).sum
      ≤ ((powers xs).map fun x => x.weight + if x.isProduct then 1 else 0).sum :=
        sum_filter_le _ _ _
    _ ≤ ((likeBases xs).map entryWeight).sum := by
      rw [powers, List.map_map]
      apply List.sum_le_sum
      intro p hp
      have hexponent : _ ≤ sumWeight p.2 := hadd p hp
      have hle := hexponent.trans (sumWeight_le_weights p.2)
      have hbase := (hpow p hp).weight_add_le
      simp only [Function.comp_apply, entryWeight]
      omega
    _ ≤ weights xs := sum_likeBases_le xs

theorem cost_of_mem_next_add {xs : List Symbolic} :
    ∀ c ∈ (add xs).next, c.cost < (add xs).cost := by
  rw [next, List.forall_mem_map]
  intro t ht
  have hterm := le_sum_of_mem (fun t => t.1.weight + 1) (List.mem_filter.1 ht).1
  have hle := (hterm.trans (sum_likeTerms_le xs)).trans (termWeight_termsOfList_le xs)
  simp only [cost, weights, List.map_cons, List.map_nil, List.sum_cons, List.sum_nil, weight_number]
  omega

theorem cost_of_mem_next_mul {xs : List Symbolic}
    (h : ∀ c : Call, c.cost < (mul xs).cost → Fits c.result c) :
    ∀ c ∈ (mul xs).next, c.cost < (mul xs).cost := by
  have hentry p (hp : p ∈ likeBases xs) : entryWeight p ≤ weights xs :=
    (le_sum_of_mem entryWeight hp).trans (sum_likeBases_le xs)
  have hadd p (hp : p ∈ likeBases xs) : (add p.2).cost < (mul xs).cost := by
    have hle := hentry p hp
    have hbase := four_le_baseWeight p.1
    have hterms := termWeight_le p.2
    simp only [cost, entryWeight] at hle ⊢
    omega
  have hpow p (hp : p ∈ likeBases xs) : (pow p.1 (Symbolic.add p.2)).cost < (mul xs).cost := by
    have hle := hentry p hp
    have hexponent : _ ≤ sumWeight p.2 := h _ (hadd p hp)
    have hweights := sumWeight_le_weights p.2
    simp only [cost, entryWeight, result] at hle hexponent ⊢
    omega
  have hpowers := factorWeights_powers_le (fun p hp => h _ (hadd p hp)) fun p hp => h _ (hpow p hp)
  rw [next]
  split
  · simp
  · simp only [List.forall_mem_append, List.forall_mem_map]
    refine ⟨⟨hadd, hpow⟩, fun c hc => ?_⟩
    have hcost : 2 * factorWeights (others (powers xs)) + 2 ≤ (mul xs).cost := by
      rw [cost]
      omega
    have hlt := cost_of_mem_productCalls (fun c hc => h c (hc.trans_le hcost)) c hc
    exact hlt.trans_le hcost

theorem fits_mul {xs : List Symbolic} (h : ∀ c ∈ (mul xs).next, Fits c.result c) :
    Fits (mul xs).step (mul xs) := by
  change Symbolic.weight _ ≤ weights xs
  rw [next] at h
  rw [step]
  split
  · exact Nat.zero_le _
  · next hzero =>
    simp only [if_neg hzero, List.forall_mem_append, List.forall_mem_map] at h
    obtain ⟨⟨hadd, hpow⟩, hproduct⟩ := h
    have hnumber : ∀ p ∈ others (powers xs), p.isNumber = false := fun p hp => by
      simpa using (List.mem_filter.1 hp).2
    exact (weight_productStep_le hnumber hproduct).trans (factorWeights_powers_le hadd hpow)

theorem weight_of_isWhole {e : Symbolic} (h : e.isWhole = true) : e.weight = 0 := by
  cases e with
  | number => rfl
  | _ => cases h

theorem cost_of_mem_next_pow {b e : Symbolic}
    (h : ∀ c : Call, c.cost < (pow b e).cost → Fits c.result c) :
    ∀ c ∈ (pow b e).next, c.cost < (pow b e).cost := by
  rw [next]
  split
  · simp
  split
  · next hwhole =>
    have he := weight_of_isWhole hwhole
    cases b with
    | power b f =>
      have hmul : (mul [f, e]).cost < (pow (.power b f) e).cost := by
        simp [cost, weights, he]
        omega
      have hle : _ ≤ weights [f, e] := h _ hmul
      simp only [openedCalls, List.forall_mem_cons]
      refine ⟨hmul, ?_, by simp⟩
      simp only [weights, List.map_cons, List.map_nil, List.sum_cons, List.sum_nil, result] at hle
      simp only [cost, baseWeight_power]
      omega
    | product xs =>
      have hpow x (hx : x ∈ xs) : (pow x e).cost < (pow (.product xs) e).cost := by
        have hle := le_sum_of_mem baseWeight hx
        rw [← baseWeights_eq] at hle
        simp only [cost, baseWeight_product]
        omega
      have hle : weights (xs.map fun x => Symbolic.pow x e) ≤ baseWeights xs := by
        rw [weights, List.map_map, baseWeights_eq]
        apply List.sum_le_sum
        intro x hx
        have hle := (h _ (hpow x hx)).weight_add_le
        simp only [result, Function.comp_apply] at hle ⊢
        omega
      simp only [openedCalls, List.forall_mem_append, List.forall_mem_map,
        List.forall_mem_singleton]
      refine ⟨hpow, ?_⟩
      simp only [cost, baseWeight_product]
      omega
    | _ => simp [openedCalls]
  · simp

/-- What a power of a power or of a product becomes weighs less as a base than the power did. -/
theorem weight_opened_le {b e : Symbolic} (he : e.isWhole = true) (hopen : openedCalls e b ≠ [])
    (h : ∀ c ∈ openedCalls e b, Fits c.result c) :
    (opened e b).weight + (opened e b).lift ≤ b.baseWeight + e.weight := by
  have he := weight_of_isWhole he
  cases b with
  | power b f =>
    rw [openedCalls, List.forall_mem_cons, List.forall_mem_singleton] at h
    have hexponent : _ ≤ weights [f, e] := h.1
    simp only [weights, List.map_cons, List.map_nil, List.sum_cons, List.sum_nil] at hexponent
    rw [opened, baseWeight_power]
    simp only [result] at h hexponent
    rcases h.2 with hpower | hle
    · rw [hpower, weight_power, lift]
      omega
    · omega
  | product xs =>
    simp only [openedCalls, List.forall_mem_append, List.forall_mem_map,
      List.forall_mem_singleton] at h
    have hproduct : _ ≤ weights _ := h.2
    have hfactors : weights (xs.map fun x => Symbolic.pow x e) ≤ baseWeights xs := by
      rw [weights, List.map_map, baseWeights_eq]
      apply List.sum_le_sum
      intro x hx
      have hle := (h.1 x hx).weight_add_le
      simp only [result, Function.comp_apply] at hle ⊢
      omega
    have hlift : (opened e (.product xs)).lift ≤ 1 := by
      cases opened e (.product xs) <;> simp [lift]
    rw [baseWeight_product]
    change (opened e (.product xs)).weight ≤ _ at hproduct
    omega
  | _ => exact absurd rfl hopen

theorem fits_opened {b e : Symbolic} (he : e.isWhole = true)
    (h : ∀ c ∈ openedCalls e b, Fits c.result c) : Fits (opened e b) (pow b e) := by
  by_cases hopen : openedCalls e b = []
  · cases b with
    | power => cases hopen
    | product => simp [openedCalls] at hopen
    | _ => exact .inl rfl
  · exact .inr (weight_opened_le he hopen h)

theorem fits_pow {b e : Symbolic} (h : ∀ c ∈ (pow b e).next, Fits c.result c) :
    Fits (pow b e).step (pow b e) := by
  rw [step, powerStep]
  split
  · exact .inr (Nat.zero_le _)
  · next hzero =>
  split
  · have hle := weight_add_lift_le b
    exact .inr (by omega)
  · next hone =>
  split
  · exact .inr (Nat.zero_le _)
  · next hbase =>
  rw [next, if_neg (by simp [isPlainPower, hzero, hone, hbase])] at h
  unfold properPower
  split
  · unfold numberPower
    split
    · exact .inr (Nat.zero_le _)
    · exact .inl rfl
  split
  · next hwhole =>
    rw [if_pos hwhole] at h
    exact fits_opened hwhole h
  · exact .inl rfl

/-- A call gives the same within any depth beyond its cost. -/
def Ends (c : Call) : Prop :=
  c.result = c.step ∧ ∀ depth, c.cost < depth → c.result? depth = some c.result

theorem weights_le {xs : List Symbolic} : weights xs ≤ 6 * sizeOfList xs :=
  weights_le_size xs fun x _ => (weightAs_lt_size x false).le

theorem termWeight_le_size {xs : List Symbolic} : termWeight xs ≤ 6 * sizeOfList xs := by
  rw [termWeight_eq]
  exact weights_le_size xs fun x _ => (termCost_le x).trans (weightAs_lt_size x false)

/-- The bound on the depth for the operands of a call. -/
def bound : Call → Nat
  | add xs => depthFor (sizeOfList xs)
  | mul xs => depthFor (sizeOfList xs)
  | pow b e => depthFor (b.size + e.size)

theorem lt_depthFor (h : m ≤ 12 * n) : m + 2 < depthFor n := by
  unfold depthFor
  nlinarith

theorem cost_lt_bound (c : Call) : c.cost < c.bound := by
  cases c with
  | add xs =>
    have hle := @termWeight_le_size xs
    exact (Nat.lt_succ_self _).trans (lt_depthFor (m := 2 * termWeight xs) (by omega))
  | mul xs =>
    have hle := @weights_le xs
    exact lt_depthFor (m := 2 * weights xs) (by omega)
  | pow b e =>
    have hb : b.baseWeight < 6 * b.size := weightAs_lt_size b true
    have he : e.weight < 6 * e.size := weightAs_lt_size e false
    exact (Nat.lt_succ_self _).trans
      (lt_depthFor (m := 2 * (b.baseWeight + e.weight)) (by omega))

/-- A step gives what the operation gives, once it does so within each depth above the cost. -/
theorem ends_of_step {c : Call} (h : ∀ depth, c.cost < depth → c.result? depth = some c.step) :
    c.Ends := by
  have hbound := h c.bound c.cost_lt_bound
  have hresult : c.result = c.step := by
    cases c with
    | add xs => exact (congrArg (Option.getD · _) hbound).trans Option.getD_some
    | mul xs => exact (congrArg (Option.getD · _) hbound).trans Option.getD_some
    | pow b e => exact (congrArg (Option.getD · _) hbound).trans Option.getD_some
  exact ⟨hresult, hresult ▸ h⟩

theorem result?_succ {c : Call} (h : ∀ c' ∈ c.next, c'.result? depth = some c'.result) :
    c.result? (depth + 1) = some c.step := by
  cases c with
  | add => exact add_succ h
  | mul => exact mul_succ h
  | pow => exact pow_succ h

theorem cost_of_mem_next {c : Call} (h : ∀ c' : Call, c'.cost < c.cost → Fits c'.result c') :
    ∀ c' ∈ c.next, c'.cost < c.cost := by
  cases c with
  | add => exact cost_of_mem_next_add
  | mul => exact cost_of_mem_next_mul h
  | pow => exact cost_of_mem_next_pow h

theorem fits_step {c : Call} (h : ∀ c' ∈ c.next, Fits c'.result c') : Fits c.step c := by
  cases c with
  | add => exact fits_add h
  | mul => exact fits_mul h
  | pow => exact fits_pow h

/-- By strong induction on the cost: the calls that are made cost less, and what they give weighs
no more than their operands. -/
theorem ends_and_fits (n : Nat) : ∀ c : Call, c.cost = n → c.Ends ∧ Fits c.result c := by
  induction n using Nat.strongRecOn with
  | ind n ih =>
    rintro c rfl
    have hcost := cost_of_mem_next fun c' hlt => (ih _ hlt c' rfl).2
    have hends : c.Ends := by
      apply ends_of_step
      rintro (_ | depth) hlt
      · omega
      · refine result?_succ fun c' hc' => ?_
        have hlt' := hcost c' hc'
        exact (ih _ hlt' c' rfl).1.2 depth (by omega)
    refine ⟨hends, hends.1 ▸ fits_step fun c' hc' => (ih _ (hcost c' hc') c' rfl).2⟩

theorem fits (c : Call) : Fits c.result c := (ends_and_fits _ c rfl).2

theorem result_eq_step (c : Call) : c.result = c.step := (ends_and_fits _ c rfl).1.1

theorem result?_eq {c : Call} (h : c.cost < depth) : c.result? depth = some c.result :=
  (ends_and_fits _ c rfl).1.2 depth h

theorem cost_lt {c : Call} (h : c' ∈ c.next) : c'.cost < c.cost :=
  cost_of_mem_next (fun c' _ => c'.fits) c' h

/-- What holds of a call if it holds of all calls that it makes holds of every call. -/
@[elab_as_elim]
theorem induct {motive : Call → Prop} (h : ∀ c, (∀ c' ∈ c.next, motive c') → motive c)
    (c : Call) : motive c := by
  induction hn : c.cost using Nat.strongRecOn generalizing c with
  | ind n ih =>
    subst hn
    exact h c fun c' hc' => ih _ (cost_lt hc') c' rfl

end Call

/-- A power that has been put together has no base that a whole exponent would go further into. -/
theorem openedCalls_of_power {b e : Symbolic} (he : e.isWhole = true)
    (h : opened e b = power b e) : openedCalls e b = [] := by
  by_contra hopen
  have hle := Call.weight_opened_le he hopen fun c _ => c.fits
  rw [h, weight_power, lift] at hle
  omega

theorem add_eq (xs : List Symbolic) : add xs = sumOf (constant xs) ((likeTerms xs).map scaled) :=
  Call.result_eq_step (.add xs)

theorem mul_eq (xs : List Symbolic) : mul xs =
    if coefficient xs == 0 then number 0 else productStep (fullCoefficient xs) (others (powers xs)) :=
  Call.result_eq_step (.mul xs)

theorem pow_eq (b e : Symbolic) : pow b e = powerStep b e := Call.result_eq_step (.pow b e)

end Formulae.Symbolic
