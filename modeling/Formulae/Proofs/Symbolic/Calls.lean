import Formulae.Proofs.Symbolic.Closure
import Formulae.Proofs.Symbolic.Grouping

namespace Formulae.Symbolic
set_option autoImplicit true

/-- What is left of like terms without their coefficients, with the sums of these. -/
def likeTerms (xs : List Symbolic) : List (Symbolic × Float) :=
  (collect (· + ·) ((others (termsOfList xs).reverse).map splitCoefficient)).filter (·.2 != 0)

/-- Equal bases among the factors, with the exponents to be added. -/
def likeBases (xs : List Symbolic) : List (Symbolic × List Symbolic) :=
  collect (· ++ ·) ((others (factorsOfList xs).reverse).map splitPower)

def constant (xs : List Symbolic) : Float := foldNumbers (· + ·) 0 (termsOfList xs).reverse

def coefficient (xs : List Symbolic) : Float := foldNumbers (· * ·) 1 (factorsOfList xs).reverse

/-- A term with its coefficient, unless that is one. -/
def scaled (t : Symbolic × Float) : Symbolic := if t.2 == 1 then t.1 else mul [number t.2, t.1]

def raised (p : Symbolic × List Symbolic) : Symbolic := pow p.1 (add p.2)

/-- The powers of the bases of a product, numbers among them. -/
def powers (xs : List Symbolic) : List Symbolic := (likeBases xs).map raised

/-- The coefficient once the powers that are numbers are multiplied with it. -/
def fullCoefficient (xs : List Symbolic) : Float :=
  foldNumbers (· * ·) (coefficient xs) (powers xs)

/-- The terms of a sum and its constant, unless that is left out. -/
def withConstant (c : Float) (xs : List Symbolic) : List Symbolic :=
  if c != 0 || xs.isEmpty then xs ++ [number c] else xs

/-- The factors of a product in order behind its coefficient, unless that is left out. -/
def withCoefficient (k : Float) (ps : List Symbolic) : List Symbolic :=
  if k != 1 then number k :: sorted ps else sorted ps

theorem forall_mem_withConstant {P : Symbolic → Prop} {xs : List Symbolic} (hc : P (number c))
    (hxs : ∀ x ∈ xs, P x) : ∀ x ∈ withConstant c xs, P x := by
  unfold withConstant
  split
  · exact List.forall_mem_append.2 ⟨hxs, List.forall_mem_singleton.2 hc⟩
  · exact hxs

theorem forall_mem_withCoefficient {P : Symbolic → Prop} {ps : List Symbolic} (hk : P (number k))
    (hps : ∀ p ∈ ps, P p) : ∀ p ∈ withCoefficient k ps, P p := by
  have hsorted : ∀ p ∈ sorted ps, P p := fun p hp => hps p (mem_sorted.1 hp)
  unfold withCoefficient
  split
  · exact List.forall_mem_cons.2 ⟨hk, hsorted⟩
  · exact hsorted

theorem sumOf_one (h : withConstant c xs = [x]) : sumOf c xs = x := by
  unfold withConstant at h
  simp only [sumOf, h]

theorem sumOf_several (h : withConstant c xs = x :: y :: ys) :
    sumOf c xs = sum (sorted (x :: y :: ys)) := by
  unfold withConstant at h
  simp only [sumOf, h]

theorem productOf_one (h : withCoefficient k ps = [x]) : productOf k ps = x := by
  unfold withCoefficient at h
  simp only [productOf, h]

theorem productOf_several (h : withCoefficient k ps = x :: y :: qs) :
    productOf k ps = product (x :: y :: qs) := by
  unfold withCoefficient at h
  simp only [productOf, h]

theorem withConstant_ne_nil (c : Float) (xs : List Symbolic) : withConstant c xs ≠ [] := by
  unfold withConstant
  split
  · exact List.append_ne_nil_of_right_ne_nil _ (List.cons_ne_nil _ _)
  · next hkept =>
    rintro rfl
    exact hkept (Bool.or_true _)

theorem sumOf_cases (c : Float) (xs : List Symbolic) :
    (∃ x, withConstant c xs = [x] ∧ sumOf c xs = x) ∨
      2 ≤ (withConstant c xs).length ∧ sumOf c xs = sum (sorted (withConstant c xs)) := by
  cases hxs : withConstant c xs with
  | nil => exact absurd hxs (withConstant_ne_nil c xs)
  | cons x ys =>
    cases ys with
    | nil => exact .inl ⟨x, rfl, sumOf_one hxs⟩
    | cons y ys => exact .inr ⟨by simp, sumOf_several hxs⟩

theorem productOf_cases (k : Float) {ps : List Symbolic} (hps : ps ≠ []) :
    (∃ x, withCoefficient k ps = [x] ∧ productOf k ps = x) ∨
      2 ≤ (withCoefficient k ps).length ∧ productOf k ps = product (withCoefficient k ps) := by
  have hne : withCoefficient k ps ≠ [] := by
    obtain ⟨p, hp⟩ := List.exists_mem_of_ne_nil _ hps
    unfold withCoefficient
    split
    · exact List.cons_ne_nil _ _
    · exact List.ne_nil_of_mem (mem_sorted.2 hp)
  cases hxs : withCoefficient k ps with
  | nil => exact absurd hxs hne
  | cons x qs =>
    cases qs with
    | nil => exact .inl ⟨x, rfl, productOf_one hxs⟩
    | cons y qs => exact .inr ⟨by simp, productOf_several hxs⟩

/-- A call of one of the three operations that call one another. -/
inductive Call where
  | add (terms : List Symbolic)
  | mul (factors : List Symbolic)
  | pow (base exponent : Symbolic)

/-- The calls made to put a product together from powers that are no numbers. -/
def productCalls (c : Float) (ps : List Symbolic) : List Call :=
  if ps.any isProduct then [.mul (ps ++ [number c])]
  else
    match ps with
    | [sum xs] =>
      if c != 1 then
        (xs.map fun x => .mul [number c, x]) ++ [.add (xs.map fun x => mul [number c, x])]
      else []
    | _ => []

/-- The product of a coefficient and powers that are no numbers. -/
def productStep (c : Float) (ps : List Symbolic) : Symbolic :=
  if ps.any isProduct then mul (ps ++ [number c])
  else
    match ps with
    | [] => number c
    | [sum xs] => if c != 1 then add (xs.map fun x => mul [number c, x]) else sum xs
    | _ => productOf c ps

/-- Is the power a number, or its base? -/
def isPlainPower (b e : Symbolic) : Bool := e.isValue 0 || e.isValue 1 || b.isValue 1

/-- Does the exponent go to the exponent or to the factors of the base? -/
def isWhole : Symbolic → Bool
  | number n => (Number.integer? n).isSome
  | _ => false

/-- The calls made to raise a power or a product to a whole exponent. -/
def openedCalls (e : Symbolic) : Symbolic → List Call
  | power b f => [.mul [f, e], .pow b (mul [f, e])]
  | product xs => (xs.map fun x => .pow x e) ++ [.mul (xs.map fun x => pow x e)]
  | _ => []

def opened (e : Symbolic) : Symbolic → Symbolic
  | power b f => pow b (mul [f, e])
  | product xs => mul (xs.map fun x => pow x e)
  | b => power b e

/-- A power of numbers, if it is finite. -/
def numberPower (x n : Float) : Symbolic :=
  if (x.pow n).isFinite then number (x.pow n) else power (number x) (number n)

/-- A power that is not plain. -/
def properPower : Symbolic → Symbolic → Symbolic
  | number x, number n => numberPower x n
  | b, e => if e.isWhole then opened e b else power b e

def powerStep (b e : Symbolic) : Symbolic :=
  if e.isValue 0 then number 1
  else if e.isValue 1 then b
  else if b.isValue 1 then number 1
  else properPower b e

namespace Call

/-- The calls that a call makes itself. -/
def next : Call → List Call
  | add xs => ((likeTerms xs).filter (·.2 != 1)).map fun t => .mul [number t.2, t.1]
  | mul xs =>
    if coefficient xs == 0 then []
    else (likeBases xs).map (fun p => .add p.2) ++
      (likeBases xs).map (fun p => .pow p.1 (Symbolic.add p.2)) ++
        productCalls (fullCoefficient xs) (others (powers xs))
  | pow b e =>
    if isPlainPower b e then [] else if e.isWhole then openedCalls e b else []

/-- What a call gives, by what the calls give that it makes itself. -/
def step : Call → Symbolic
  | add xs => sumOf (constant xs) ((likeTerms xs).map scaled)
  | mul xs =>
    if coefficient xs == 0 then number 0 else productStep (fullCoefficient xs) (others (powers xs))
  | pow b e => powerStep b e

def result : Call → Symbolic
  | add xs => Symbolic.add xs
  | mul xs => Symbolic.mul xs
  | pow b e => Symbolic.pow b e

def result? (depth : Nat) : Call → Option Symbolic
  | add xs => add? depth xs
  | mul xs => mul? depth xs
  | pow b e => pow? depth b e

theorem mem_next_add {xs : List Symbolic} (ht : t ∈ likeTerms xs) (hc : ¬(t.2 == 1) = true) :
    mul [number t.2, t.1] ∈ (add xs).next :=
  List.mem_map_of_mem (List.mem_filter.2 ⟨ht, by simpa [bne] using hc⟩)

theorem add_succ (h : ∀ c ∈ (add xs).next, c.result? depth = some c.result) :
    add? (depth + 1) xs = some (add xs).step := by
  rw [add?]
  refine Option.bind_eq_some_iff.2 ⟨(likeTerms xs).map scaled, mapM_eq_map ?_, rfl⟩
  rintro ⟨x, c⟩ ht
  unfold scaled
  dsimp only
  split
  · rfl
  · next hc => exact h _ (mem_next_add ht hc)

/-- A product put together within a depth. -/
def product? (depth : Nat) (k : Float) (ps : List Symbolic) : Option Symbolic :=
  if ps.any isProduct then mul? depth (ps ++ [number k])
  else
    match ps with
    | [] => some (number k)
    | [sum xs] =>
      if k != 1 then do add? depth (← xs.mapM fun x => mul? depth [number k, x])
      else some (sum xs)
    | _ => some (productOf k ps)

theorem product?_eq (h : ∀ c ∈ productCalls k ps, c.result? depth = some c.result) :
    product? depth k ps = some (productStep k ps) := by
  unfold productCalls at h
  unfold product? productStep
  split
  · next hany =>
    rw [if_pos hany, List.forall_mem_singleton] at h
    exact h
  · next hany =>
    rw [if_neg hany] at h
    split
    · rfl
    · next xs =>
      dsimp only at h ⊢
      split
      · next hk =>
        simp only [if_pos hk, List.forall_mem_append, List.forall_mem_map,
          List.forall_mem_singleton] at h
        have hterms : xs.mapM (fun x => mul? depth [number k, x]) = some (xs.map _) :=
          mapM_eq_map h.1
        rw [hterms]
        exact h.2
      · rfl
    · rfl

theorem mul_succ (h : ∀ c ∈ (mul xs).next, c.result? depth = some c.result) :
    mul? (depth + 1) xs = some (mul xs).step := by
  rw [mul?, step]
  change (if coefficient xs == 0 then some (number 0) else _) = _
  split
  · rfl
  · next hzero =>
    simp only [next, if_neg hzero, List.forall_mem_append, List.forall_mem_map] at h
    obtain ⟨⟨hadd, hpow⟩, hproduct⟩ := h
    refine Option.bind_eq_some_iff.2 ⟨powers xs, mapM_eq_map ?_, product?_eq hproduct⟩
    intro p hp
    exact Option.bind_eq_some_iff.2 ⟨_, hadd p hp, hpow p hp⟩

theorem pow_succ (h : ∀ c ∈ (pow b e).next, c.result? depth = some c.result) :
    pow? (depth + 1) b e = some (pow b e).step := by
  unfold pow?
  rw [step, powerStep]
  split
  · rfl
  · next hzero =>
  split
  · rfl
  · next hone =>
  split
  · rfl
  · next hbase =>
  rw [next, if_neg (by simp [isPlainPower, hzero, hone, hbase])] at h
  cases e with
  | number n =>
    by_cases hwhole : (number n).isWhole = true
    · rw [if_pos hwhole] at h
      cases b with
      | number x => rfl
      | power b f =>
        simp only [openedCalls, List.forall_mem_cons] at h
        simp only [properPower, if_pos hwhole, opened]
        exact (if_pos hwhole).trans (Option.bind_eq_some_iff.2 ⟨_, h.1, h.2.1⟩)
      | product xs =>
        simp only [openedCalls, List.forall_mem_append, List.forall_mem_map,
          List.forall_mem_singleton] at h
        simp only [properPower, if_pos hwhole, opened]
        exact (if_pos hwhole).trans (Option.bind_eq_some_iff.2 ⟨_, mapM_eq_map h.1, h.2⟩)
      | _ => simp only [properPower, opened, ite_self]
    · cases b with
      | number x => rfl
      | power => simp only [properPower, if_neg hwhole]; exact if_neg hwhole
      | product => simp only [properPower, if_neg hwhole]; exact if_neg hwhole
      | _ => simp only [properPower, opened, ite_self]
  | _ => cases b <;> rfl

end Call

end Formulae.Symbolic
