import Formulae.Proofs.Symbolic.Closure
import Mathlib

namespace Formulae.Symbolic
set_option autoImplicit true

/-- Equality with the tree can be turned round and passed on. -/
def Passes (x : Symbolic) : Prop :=
  ∀ y, (x == y) = true → (y == x) = true ∧ ∀ z, (y == z) = true → (x == z) = true

theorem passes_list {xs ys : List Symbolic} (hxs : ∀ x ∈ xs, Passes x)
    (h : beqList xs ys = true) :
    beqList ys xs = true ∧ ∀ zs, beqList ys zs = true → beqList xs zs = true := by
  induction xs generalizing ys with
  | nil =>
    cases ys with
    | nil => exact ⟨rfl, fun _ => id⟩
    | cons => cases h
  | cons x xs ih =>
    cases ys with
    | nil => cases h
    | cons y ys =>
      rw [List.forall_mem_cons] at hxs
      obtain ⟨hhead, htail⟩ := Bool.and_eq_true_iff.1 h
      obtain ⟨hsymm, htrans⟩ := hxs.1 y hhead
      obtain ⟨hsymms, htranss⟩ := ih hxs.2 htail
      refine ⟨Bool.and_eq_true_iff.2 ⟨hsymm, hsymms⟩, fun zs h' => ?_⟩
      cases zs with
      | nil => cases h'
      | cons z zs =>
        obtain ⟨hhead', htail'⟩ := Bool.and_eq_true_iff.1 h'
        exact Bool.and_eq_true_iff.2 ⟨htrans z hhead', htranss zs htail'⟩

theorem passes_two {a b : Symbolic} (ha : Passes a) (hb : Passes b) (p : Symbolic × Symbolic)
    (h : (a == p.1 && b == p.2) = true) :
    (p.1 == a && p.2 == b) = true ∧
      ∀ q : Symbolic × Symbolic, (p.1 == q.1 && p.2 == q.2) = true →
        (a == q.1 && b == q.2) = true := by
  simp only [Bool.and_eq_true] at h ⊢
  obtain ⟨hsymm, htrans⟩ := ha p.1 h.1
  obtain ⟨hsymm', htrans'⟩ := hb p.2 h.2
  exact ⟨⟨hsymm, hsymm'⟩, fun q h' => ⟨htrans q.1 h'.1, htrans' q.2 h'.2⟩⟩

/-- Only trees of one form are equal, and then as their parts are. So it is enough to turn the
equality of the parts round and to pass it on. -/
theorem passes_of_form (form : α → Symbolic) (same : α → α → Bool) (a : α)
    (hsame : ∀ a b, (form a == form b) = same a b)
    (hform : ∀ a y, (form a == y) = true → ∃ b, y = form b)
    (hparts : ∀ b, same a b = true → same b a = true ∧ ∀ c, same b c = true → same a c = true) :
    Passes (form a) := by
  intro y hy
  obtain ⟨b, rfl⟩ := hform a y hy
  obtain ⟨hsymm, htrans⟩ := hparts b ((hsame a b).symm.trans hy)
  refine ⟨(hsame b a).trans hsymm, fun z hz => ?_⟩
  obtain ⟨c, rfl⟩ := hform b z hz
  exact (hsame a c).trans (htrans c ((hsame b c).symm.trans hz))

theorem passes (x : Symbolic) : Passes x := by
  induction x using Symbolic.induct with
  | number a =>
    refine passes_of_form number (· == ·) a (fun _ _ => rfl) (fun _ y h => ?_)
      fun _ h => ⟨BEq.symm h, fun _ => BEq.trans h⟩
    cases y with
    | number b => exact ⟨b, rfl⟩
    | _ => cases h
  | truth a =>
    refine passes_of_form truth (· == ·) a (fun _ _ => rfl) (fun _ y h => ?_)
      fun _ h => ⟨BEq.symm h, fun _ => BEq.trans h⟩
    cases y with
    | truth b => exact ⟨b, rfl⟩
    | _ => cases h
  | symbol a =>
    refine passes_of_form symbol (· == ·) a (fun _ _ => rfl) (fun _ y h => ?_)
      fun _ h => ⟨BEq.symm h, fun _ => BEq.trans h⟩
    cases y with
    | symbol b => exact ⟨b, rfl⟩
    | _ => cases h
  | sum xs ih =>
    refine passes_of_form sum beqList xs (fun _ _ => rfl) (fun _ y h => ?_) fun _ => passes_list ih
    cases y with
    | sum ys => exact ⟨ys, rfl⟩
    | _ => cases h
  | product xs ih =>
    refine passes_of_form product beqList xs (fun _ _ => rfl) (fun _ y h => ?_)
      fun _ => passes_list ih
    cases y with
    | product ys => exact ⟨ys, rfl⟩
    | _ => cases h
  | power b e ihb ihe =>
    refine passes_of_form (fun p => power p.1 p.2) (fun p q => p.1 == q.1 && p.2 == q.2) (b, e)
      (fun _ _ => rfl) (fun _ y h => ?_) (passes_two ihb ihe)
    cases y with
    | power c f => exact ⟨(c, f), rfl⟩
    | _ => cases h
  | remainder a b iha ihb =>
    refine passes_of_form (fun p => remainder p.1 p.2) (fun p q => p.1 == q.1 && p.2 == q.2) (a, b)
      (fun _ _ => rfl) (fun _ y h => ?_) (passes_two iha ihb)
    cases y with
    | remainder c d => exact ⟨(c, d), rfl⟩
    | _ => cases h
  | call f xs ih =>
    have hsame xs ys : (call f xs == call f ys) = beqList xs ys :=
      congrArg (· && beqList xs ys) (beq_self_eq_true f)
    refine passes_of_form (call f) beqList xs hsame (fun _ y h => ?_) fun _ => passes_list ih
    cases y with
    | call g ys =>
      cases eq_of_beq (a := f) (Bool.and_eq_true_iff.1 h).1
      exact ⟨ys, rfl⟩
    | _ => cases h
  | relation op a b iha ihb =>
    have hsame (p q : Symbolic × Symbolic) :
        (relation op p.1 p.2 == relation op q.1 q.2) = (p.1 == q.1 && p.2 == q.2) :=
      congrArg (· && p.1 == q.1 && p.2 == q.2) (beq_self_eq_true op)
    refine passes_of_form (fun p => relation op p.1 p.2) _ (a, b) hsame (fun _ y h => ?_)
      (passes_two iha ihb)
    cases y with
    | relation p c d =>
      cases eq_of_beq (a := op) (Bool.and_eq_true_iff.1 (Bool.and_eq_true_iff.1 h).1).1
      exact ⟨(c, d), rfl⟩
    | _ => cases h
  | negation a ih =>
    refine passes_of_form negation (· == ·) a (fun _ _ => rfl) (fun _ y h => ?_) ih
    cases y with
    | negation b => exact ⟨b, rfl⟩
    | _ => cases h
  | logical op xs ih =>
    have hsame xs ys : (logical op xs == logical op ys) = beqList xs ys :=
      congrArg (· && beqList xs ys) (beq_self_eq_true op)
    refine passes_of_form (logical op) beqList xs hsame (fun _ y h => ?_) fun _ => passes_list ih
    cases y with
    | logical p ys =>
      cases eq_of_beq (a := op) (Bool.and_eq_true_iff.1 h).1
      exact ⟨ys, rfl⟩
    | _ => cases h

instance : PartialEquivBEq Symbolic where
  symm h := (passes _ _ h).1
  trans h := (passes _ _ h).2 _

theorem beq_eq_false_symm {x y : Symbolic} (h : (x == y) = false) : (y == x) = false :=
  Bool.eq_false_iff.2 fun hyx => Bool.eq_false_iff.1 h (BEq.symm hyx)

/-- Is there something in the tree that is not a number? -/
def Blurred (x : Symbolic) : Prop := (x == x) = false

theorem Blurred.beq_left {x y : Symbolic} (h : Blurred x) : (x == y) = false :=
  Bool.eq_false_iff.2 fun hxy => Bool.eq_false_iff.1 h (BEq.trans hxy (BEq.symm hxy))

theorem Blurred.beq_right {x y : Symbolic} (h : Blurred y) : (x == y) = false :=
  beq_eq_false_symm h.beq_left

theorem beqList_blurred {xs ys : List Symbolic} (hx : x ∈ xs) (h : Blurred x) :
    beqList xs ys = false := by
  induction xs generalizing ys with
  | nil => cases hx
  | cons a xs ih =>
    cases ys with
    | nil => rfl
    | cons b ys =>
      rcases List.mem_cons.1 hx with rfl | hx
      · exact Bool.and_eq_false_iff.2 (.inl h.beq_left)
      · exact Bool.and_eq_false_iff.2 (.inr (ih hx))

/-- What is left of a term without its coefficient. -/
def term (x : Symbolic) : Symbolic := x.splitCoefficient.1

/-- The base of a power, and otherwise the factor itself. -/
def base (x : Symbolic) : Symbolic := x.splitPower.1

theorem beq_base {x y : Symbolic} (h : (x == y) = true) : (x.base == y.base) = true := by
  cases x with
  | power b e =>
    cases y with
    | power c f => exact (Bool.and_eq_true_iff.1 h).1
    | _ => cases h
  | _ =>
    cases y with
    | power c f => cases h
    | _ => exact h

theorem beq_isNumber {x y : Symbolic} (h : (x == y) = true) : x.isNumber = y.isNumber := by
  cases x <;> cases y <;> first | rfl | cases h

theorem splitCoefficient_of_not_number {x : Symbolic} {xs : List Symbolic}
    (h : x.isNumber = false) : (product (x :: xs)).splitCoefficient = (product (x :: xs), 1) := by
  cases x with
  | number => cases h
  | _ => rfl

theorem beq_term {x y : Symbolic} (h : (x == y) = true) : (x.term == y.term) = true := by
  cases x with
  | product xs =>
    cases y with
    | product ys =>
      match xs, ys, h with
      | [], [], h => exact h
      | a :: as, b :: bs, h =>
        obtain ⟨hfirst, hrest⟩ := Bool.and_eq_true_iff.1 h
        cases ha : a.isNumber with
        | false =>
          have hb := (beq_isNumber hfirst).symm.trans ha
          rw [term, term, splitCoefficient_of_not_number ha, splitCoefficient_of_not_number hb]
          exact h
        | true =>
          cases a with
          | number c =>
            cases b with
            | number d =>
              match as, bs, hrest with
              | [], [], _ => rfl
              | [_], [_], hrest => exact (Bool.and_eq_true_iff.1 hrest).1
              | _ :: _ :: _, _ :: _ :: _, hrest => exact hrest
              | [_], _ :: _ :: _, hrest | _ :: _ :: _, [_], hrest =>
                cases (Bool.and_eq_true_iff.1 hrest).2
            | _ => cases hfirst
          | _ => cases ha
    | _ => cases h
  | _ =>
    cases y with
    | product ys => cases h
    | _ => exact h

/-- No two keys are equal. -/
def Distinct (entries : List (Symbolic × α)) : Prop :=
  entries.Pairwise fun e e' => (e.1 == e'.1) = false

theorem combineAt_of_distinct {entries : List (Symbolic × α)} {combine : α → α → α} {k : Symbolic}
    (h : ∀ e ∈ entries, (e.1 == k) = false) (value : α) :
    combineAt combine k value entries = entries ++ [(k, value)] := by
  induction entries with
  | nil => rfl
  | cons e entries ih =>
    rw [List.forall_mem_cons] at h
    rw [combineAt, h.1, if_neg Bool.false_ne_true, ih h.2, List.cons_append]

theorem distinct_combineAt {entries : List (Symbolic × α)} {combine : α → α → α} (k : Symbolic)
    (value : α) (h : Distinct entries) : Distinct (combineAt combine k value entries) := by
  induction entries with
  | nil => exact List.pairwise_singleton _ _
  | cons e entries ih =>
    obtain ⟨hfirst, hrest⟩ := List.pairwise_cons.1 h
    unfold combineAt
    split
    · exact List.pairwise_cons.2 ⟨hfirst, hrest⟩
    · next hne =>
      have hne : (e.1 == k) = false := Bool.eq_false_iff.2 hne
      have hbehind : ∀ e' ∈ combineAt combine k value entries, (e.1 == e'.1) = false := by
        refine combineAt_forall (Q := fun e' => (e.1 == e'.1) = false) ?_ hne hfirst
        exact fun hkey _ => hkey
      exact List.pairwise_cons.2 ⟨hbehind, ih hrest⟩

theorem collect_append (combine : α → α → α) (entries : List (Symbolic × α)) (e : Symbolic × α) :
    collect combine (entries ++ [e]) = combineAt combine e.1 e.2 (collect combine entries) := by
  rw [collect, List.foldl_append]
  rfl

theorem distinct_collect (combine : α → α → α) (entries : List (Symbolic × α)) :
    Distinct (collect combine entries) := by
  induction entries using List.reverseRecOn with
  | nil => exact List.Pairwise.nil
  | append_singleton entries e ih =>
    rw [collect_append]
    exact distinct_combineAt e.1 e.2 ih

/-- Where no two keys are equal, there is nothing to collect. -/
theorem collect_of_distinct {entries : List (Symbolic × α)} {combine : α → α → α}
    (h : Distinct entries) : collect combine entries = entries := by
  induction entries using List.reverseRecOn with
  | nil => rfl
  | append_singleton entries e ih =>
    obtain ⟨hbefore, -, hlast⟩ := List.pairwise_append.1 h
    rw [collect_append, ih hbefore]
    exact combineAt_of_distinct (fun e' he' => hlast e' he' e (List.mem_singleton_self e)) e.2

end Formulae.Symbolic
