import Formulae.Proofs.Outcome
import Formulae.Symbolic.Simplify

namespace Formulae.Symbolic
set_option autoImplicit true

/-- A property of numbers that sums, products and powers pass to their operands, and products to
what is left of them without their coefficients. -/
structure Passed (P : Symbolic → Prop) : Prop where
  number : P (number x)
  sum : P (sum xs) → ∀ x ∈ xs, P x
  product : P (product xs) → ∀ x ∈ xs, P x
  power : P (power b e) → P b ∧ P e
  rest : (∀ x, xs ≠ [x]) → P (.product (.number c :: xs)) → P (.product xs)

/-- A property holds of every tree if it passes from the operands of a node to the node. -/
@[elab_as_elim]
theorem induct {motive : Symbolic → Prop} (number : ∀ x, motive (number x))
    (truth : ∀ b, motive (truth b)) (symbol : ∀ x, motive (symbol x))
    (sum : ∀ xs, (∀ x ∈ xs, motive x) → motive (sum xs))
    (product : ∀ xs, (∀ x ∈ xs, motive x) → motive (product xs))
    (power : ∀ b e, motive b → motive e → motive (power b e))
    (remainder : ∀ x y, motive x → motive y → motive (remainder x y))
    (call : ∀ f xs, (∀ x ∈ xs, motive x) → motive (call f xs))
    (relation : ∀ op x y, motive x → motive y → motive (relation op x y))
    (negation : ∀ x, motive x → motive (negation x))
    (logical : ∀ op xs, (∀ x ∈ xs, motive x) → motive (logical op xs)) (s : Symbolic) :
    motive s := by
  refine @Symbolic.rec motive (fun xs => ∀ x ∈ xs, motive x) number truth symbol sum product power
    remainder call relation negation logical ?_ ?_ s
  · exact fun x hx => absurd hx List.not_mem_nil
  · exact fun x xs ihx ihxs => List.forall_mem_cons.2 ⟨ihx, ihxs⟩

theorem termsOfList_eq (xs : List Symbolic) : termsOfList xs = xs.flatMap terms := by
  induction xs with
  | nil => rfl
  | cons x xs ih => simp only [termsOfList, ih, List.flatMap_cons]

theorem factorsOfList_eq (xs : List Symbolic) : factorsOfList xs = xs.flatMap factors := by
  induction xs with
  | nil => rfl
  | cons x xs ih => simp only [factorsOfList, ih, List.flatMap_cons]

theorem Keyed.mem_insert {a b : Keyed} {bs : List Keyed} : a ∈ insert b bs ↔ a = b ∨ a ∈ bs := by
  induction bs with
  | nil => simp [insert]
  | cons c bs ih =>
    unfold insert
    split
    · exact List.mem_cons
    · rw [List.mem_cons, ih, List.mem_cons]
      exact or_left_comm

@[simp] theorem mem_sorted {xs : List Symbolic} : x ∈ sorted xs ↔ x ∈ xs := by
  have hmem (ys : List Keyed) : ∀ a, a ∈ ys.foldr Keyed.insert [] ↔ a ∈ ys := by
    intro a
    induction ys with
    | nil => rfl
    | cons b ys ih => rw [List.foldr_cons, Keyed.mem_insert, ih, List.mem_cons]
  simp only [sorted, List.mem_map, hmem]
  exact ⟨fun ⟨_, ⟨y, hy, hkey⟩, htree⟩ => htree ▸ hkey ▸ hy, fun hx => ⟨_, ⟨x, hx, rfl⟩, rfl⟩⟩

theorem mem_of_mem_others {xs : List Symbolic} (h : x ∈ others xs) : x ∈ xs :=
  (List.mem_filter.1 h).1

theorem combineAt_forall {Q : Symbolic × α → Prop} {combine : α → α → α} {key : Symbolic}
    (hQ : ∀ {k v w}, Q (k, v) → Q (key, w) → Q (k, combine v w))
    {entries : List (Symbolic × α)} (hnew : Q (key, value)) (h : ∀ e ∈ entries, Q e) :
    ∀ e ∈ combineAt combine key value entries, Q e := by
  induction entries with
  | nil => simpa [combineAt] using hnew
  | cons e entries ih =>
    rw [List.forall_mem_cons] at h
    unfold combineAt
    split
    · exact List.forall_mem_cons.2 ⟨hQ h.1 hnew, h.2⟩
    · exact List.forall_mem_cons.2 ⟨h.1, ih h.2⟩

theorem collect_forall {Q : Symbolic × α → Prop} {combine : α → α → α}
    (hQ : ∀ {k k' v w}, Q (k, v) → Q (k', w) → Q (k, combine v w))
    {entries : List (Symbolic × α)} (h : ∀ e ∈ entries, Q e) :
    ∀ e ∈ collect combine entries, Q e := by
  unfold collect
  exact List.foldlRecOn entries _ (motive := fun found => ∀ e ∈ found, Q e)
    (fun e he => absurd he List.not_mem_nil)
    fun found hfound e he => combineAt_forall hQ (h e he) hfound

namespace Passed

variable {P : Symbolic → Prop} (h : Passed P)

include h

theorem terms {x : Symbolic} (hx : P x) : ∀ t ∈ x.terms, P t := by
  induction x using Symbolic.induct with
  | sum xs ih =>
    rw [Symbolic.terms, termsOfList_eq]
    intro t ht
    obtain ⟨x, hmem, ht⟩ := List.mem_flatMap.1 ht
    exact ih x hmem (h.sum hx x hmem) t ht
  | _ => simpa [Symbolic.terms] using hx

theorem factors {x : Symbolic} (hx : P x) : ∀ t ∈ x.factors, P t := by
  induction x using Symbolic.induct with
  | product xs ih =>
    rw [Symbolic.factors, factorsOfList_eq]
    intro t ht
    obtain ⟨x, hmem, ht⟩ := List.mem_flatMap.1 ht
    exact ih x hmem (h.product hx x hmem) t ht
  | _ => simpa [Symbolic.factors] using hx

theorem splitCoefficient {x : Symbolic} (hx : P x) : P x.splitCoefficient.1 := by
  unfold Symbolic.splitCoefficient
  split
  · exact h.product hx _ (by simp)
  · next hne => exact h.rest hne hx
  · exact hx

theorem splitPower {x : Symbolic} (hx : P x) :
    P x.splitPower.1 ∧ ∀ e ∈ x.splitPower.2, P e := by
  unfold Symbolic.splitPower
  split
  · simpa using h.power hx
  · simpa using ⟨hx, h.number⟩

theorem termsOfList (hxs : ∀ x ∈ xs, P x) : ∀ t ∈ Symbolic.termsOfList xs, P t := by
  rw [termsOfList_eq]
  intro t ht
  obtain ⟨x, hx, ht⟩ := List.mem_flatMap.1 ht
  exact h.terms (hxs x hx) t ht

theorem factorsOfList (hxs : ∀ x ∈ xs, P x) : ∀ t ∈ Symbolic.factorsOfList xs, P t := by
  rw [factorsOfList_eq]
  intro t ht
  obtain ⟨x, hx, ht⟩ := List.mem_flatMap.1 ht
  exact h.factors (hxs x hx) t ht

/-- Like terms with their coefficients. -/
theorem collectedTerms (hxs : ∀ x ∈ xs, P x) :
    ∀ e ∈ collect combine ((others xs).map Symbolic.splitCoefficient), P e.1 := by
  refine collect_forall (Q := fun e => P e.1) ?_ ?_
  · exact fun hk _ => hk
  · exact List.forall_mem_map.2 fun x hx => h.splitCoefficient (hxs x (mem_of_mem_others hx))

/-- Equal bases with their exponents. -/
theorem collectedPowers (hxs : ∀ x ∈ xs, P x) :
    ∀ e ∈ collect (· ++ ·) ((others xs).map Symbolic.splitPower), P e.1 ∧ ∀ x ∈ e.2, P x := by
  refine collect_forall (Q := fun e => P e.1 ∧ ∀ x ∈ e.2, P x) ?_ ?_
  · exact fun hk hk' => ⟨hk.1, List.forall_mem_append.2 ⟨hk.2, hk'.2⟩⟩
  · exact List.forall_mem_map.2 fun x hx => h.splitPower (hxs x (mem_of_mem_others hx))

end Passed

end Formulae.Symbolic
