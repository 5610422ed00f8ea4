import Formulae.Proofs.Symbolic.Formed
import Formulae.Proofs.Symbolic.Order

namespace Formulae
set_option autoImplicit true

namespace Symbolic

/-- A property holds of a tree and of all trees in it. -/
inductive Everywhere (P : Symbolic → Prop) : Symbolic → Prop
  | intro : P s → (∀ x ∈ s.operands, Everywhere P x) → Everywhere P s

variable {P Q : Symbolic → Prop}

theorem Everywhere.node (h : Everywhere P s) : P s := by
  cases h with
  | intro hs => exact hs

theorem Everywhere.operand (h : Everywhere P s) : ∀ x ∈ s.operands, Everywhere P x := by
  cases h with
  | intro _ hxs => exact hxs

theorem Everywhere.mono (hPQ : ∀ s, P s → Q s) (h : Everywhere P s) : Everywhere Q s := by
  induction h with
  | intro hs _ ih => exact .intro (hPQ _ hs) ih

theorem Everywhere.leaf (h : P s) (hs : s.operands = []) : Everywhere P s :=
  .intro h (by simp [hs])

theorem Everywhere.two (h : P s) (hs : s.operands = [x, y]) (hx : Everywhere P x)
    (hy : Everywhere P y) : Everywhere P s :=
  .intro h (by simpa [hs] using ⟨hx, hy⟩)

def isLogical (op : BoolOp) : Symbolic → Bool
  | logical o _ => o = op
  | _ => false

/-- May the negation of a tree stay as it is? -/
def isNegatable : Symbolic → Bool
  | truth _ | relation _ _ _ => false
  | negation x => !x.isBoolean
  | _ => true

/-- What no operation leaves to be folded at a node. -/
def Shape : Symbolic → Prop
  | number _ | truth _ | symbol _ | remainder _ _ => True
  | sum xs => 2 ≤ xs.length
  | product xs => 2 ≤ xs.length ∧ (∀ x ∈ xs, x.isProduct = false) ∧
      (∀ x ∈ xs.tail, x.isNumber = false) ∧ ∀ x ∈ xs.head?, x.isValue 1 = false
  | power b e => e.isValue 0 = false ∧ e.isValue 1 = false ∧ b.isValue 1 = false
  | call f xs => ¬(f = "sqrt" ∧ xs.length = 1)
  | relation _ x y => ¬(x.isNumber = true ∧ y.isNumber = true)
  | negation x => x.isNegatable = true
  | logical op xs => 2 ≤ xs.length ∧ ∀ x ∈ xs, x.isLogical op = false

def isArithmetic : Symbolic → Bool
  | sum _ | product _ | power _ _ => true
  | _ => false

/-- A call stays a call, but a square root. -/
theorem apply_cases (f : String) (xs : List Symbolic) :
    (∃ x, f = "sqrt" ∧ xs = [x] ∧ apply f xs = pow x (number 0.5)) ∨
      ¬(f = "sqrt" ∧ xs.length = 1) ∧ apply f xs = call f xs := by
  unfold apply
  split
  · next x => exact .inl ⟨x, rfl, rfl, rfl⟩
  · next hne =>
    refine .inr ⟨?_, rfl⟩
    rintro ⟨rfl, hlen⟩
    obtain ⟨x, rfl⟩ := List.length_eq_one_iff.1 hlen
    exact hne x rfl rfl

theorem mod_cases (x y : Symbolic) : (∃ c, mod x y = number c) ∨ mod x y = remainder x y := by
  unfold mod
  split
  · dsimp only
    split
    · exact .inl ⟨_, rfl⟩
    · exact .inr rfl
  · exact .inr rfl

theorem flatten_eq_self {xs : List Symbolic} (h : ∀ x ∈ xs, x.isLogical op = false) :
    flatten op xs = xs := by
  fun_induction flatten op xs with
  | case1 => rfl
  | case2 ys xs ih => simp [isLogical] at h
  | case3 o ys xs hne ih => rw [ih fun x hx => h x (List.mem_cons_of_mem _ hx)]
  | case4 x xs hne ih => rw [ih fun x hx => h x (List.mem_cons_of_mem _ hx)]

theorem pairwise_distinct (xs : List Symbolic) :
    (distinct xs).Pairwise fun x y => (x == y) = false := by
  induction xs using List.reverseRecOn with
  | nil => exact .nil
  | append_singleton xs x ih =>
    rw [distinct_append]
    split
    · exact ih
    · next hnew =>
      refine List.pairwise_append.2 ⟨ih, List.pairwise_singleton _ _, fun y hy z hz => ?_⟩
      rw [List.mem_singleton.1 hz]
      exact Bool.eq_false_iff.2 fun hyx => hnew (List.any_eq_true.2 ⟨y, hy, hyx⟩)

theorem distinct_eq_self {xs : List Symbolic} (h : xs.Pairwise fun x y => (x == y) = false) :
    distinct xs = xs := by
  induction xs using List.reverseRecOn with
  | nil => rfl
  | append_singleton xs x ih =>
    obtain ⟨hbefore, -, hlast⟩ := List.pairwise_append.1 h
    have hnew : xs.any (· == x) = false := List.any_eq_false.2 fun y hy =>
      Bool.eq_false_iff.1 (hlast y hy x (List.mem_singleton_self x))
    rw [distinct_append, ih hbefore, hnew, if_neg Bool.false_ne_true]

/-- Nothing that is dropped at the front is anything but a truth value. -/
theorem undecided_again {xs : List Symbolic} (h : undecided op xs = some ys) :
    undecided op ys = some ys ∧ ys.all isBoolean = xs.all isBoolean := by
  fun_induction undecided op xs with
  | case1 xs ih =>
    obtain ⟨hagain, hall⟩ := ih h
    exact ⟨hagain, by rw [hall, List.all_cons, isBoolean, Bool.true_and]⟩
  | case2 => cases h
  | case3 xs hne =>
    cases h
    refine ⟨?_, rfl⟩
    unfold undecided
    split
    · next b zs => exact absurd rfl (hne b zs)
    · rfl

/-- What is left of the operands of a connective is left again. -/
theorem remaining_again {xs : List Symbolic} (h : remaining op xs = some ys) :
    remaining op ys = some ys := by
  have hmem : ∀ y ∈ ys, y ∈ xs := fun y hy => mem_of_remaining h hy
  unfold remaining at h
  split at h
  · next hall =>
    split at h
    · cases h
    · next hdecides =>
      cases h
      have hneutral y (hy : y ∈ distinct (xs.filter fun x => !isTruth op.identity x)) :
          (!isTruth op.identity y) = true := (List.mem_filter.1 (mem_of_mem_distinct hy)).2
      rw [remaining, if_pos (List.all_eq_true.2 fun y hy => List.all_eq_true.1 hall y (hmem y hy)),
        if_neg fun hany => ?_, List.filter_eq_self.2 hneutral,
        distinct_eq_self (pairwise_distinct _)]
      obtain ⟨y, hy, htruth⟩ := List.any_eq_true.1 hany
      exact hdecides (List.any_eq_true.2 ⟨y, hmem y hy, htruth⟩)
  · next hall =>
    obtain ⟨hagain, hsame⟩ := undecided_again h
    rw [remaining, hsame, if_neg hall, hagain]

/-- What is left of flat operands are the operands of a connective that stays as it is. -/
theorem logic_of_remaining {xs : List Symbolic} (h : remaining op xs = some ys)
    (hxs : ∀ x ∈ xs, x.isLogical op = false) (hlen : 2 ≤ ys.length) :
    logic op ys = logical op ys := by
  rw [logic, flatten_eq_self fun y hy => hxs y (mem_of_remaining h hy), remaining_again h]
  match ys with
  | [] | [y] => simp at hlen
  | _ :: _ :: _ => rfl

/-- A remainder or a connective is what is put together of its operands. -/
def Fixed : Symbolic → Prop
  | remainder x y => mod x y = remainder x y
  | logical op xs => logic op xs = logical op xs
  | _ => True

/-- A property of nodes that says no more than their shape, and that they are put together as they
are, but of sums, products and powers. -/
structure Refines (P : Symbolic → Prop) : Prop where
  shape : P s → s.Shape
  other : s.isArithmetic = false → s.Shape → s.Fixed → P s

namespace Refines

variable (h : Refines P)

include h

theorem number : Everywhere P (number c) := .leaf (h.other rfl trivial trivial) rfl

theorem truth : Everywhere P (truth b) := .leaf (h.other rfl trivial trivial) rfl

theorem symbol : Everywhere P (symbol x) := .leaf (h.other rfl trivial trivial) rfl

theorem call (hf : ¬(f = "sqrt" ∧ xs.length = 1)) (hxs : ∀ x ∈ xs, Everywhere P x) :
    Everywhere P (call f xs) :=
  .intro (h.other rfl hf trivial) hxs

theorem mod (hx : Everywhere P x) (hy : Everywhere P y) : Everywhere P (mod x y) := by
  rcases mod_cases x y with ⟨c, hmod⟩ | hmod
  · rw [hmod]
    exact h.number
  · rw [hmod]
    exact .two (h.other rfl trivial hmod) rfl hx hy

theorem relate (hx : Everywhere P x) (hy : Everywhere P y) : Everywhere P (relate op x y) := by
  unfold Symbolic.relate
  split
  · exact h.truth
  · next hne =>
    refine .two (h.other rfl ?_ trivial) rfl hx hy
    rintro ⟨hxn, hyn⟩
    cases x with
    | number a =>
      cases y with
      | number b => exact hne a b rfl rfl
      | _ => cases hyn
    | _ => cases hxn

/-- The negation of a relation is the opposite relation of the same operands. -/
theorem not (hx : Everywhere P x) : Everywhere P (not x) := by
  have hnegation (hs : x.isNegatable = true) : Everywhere P (.negation x) :=
    .intro (h.other rfl hs trivial) (by simpa [operands] using hx)
  cases x with
  | truth => exact h.truth
  | relation op y z =>
    have hshape := h.shape hx.node
    rw [Symbolic.not]
    exact .intro (h.other rfl hshape trivial) hx.operand
  | negation y =>
    rw [Symbolic.not]
    split
    · exact hx.operand y List.mem_cons_self
    · next hy => exact hnegation (by simpa [isNegatable] using hy)
  | _ => exact hnegation rfl

/-- The operands of a connective's operands are no such connectives any more. -/
theorem flatten {xs : List Symbolic} (hxs : ∀ x ∈ xs, Everywhere P x) :
    ∀ x ∈ flatten op xs, Everywhere P x ∧ x.isLogical op = false := by
  fun_induction Symbolic.flatten op xs with
  | case1 => simp
  | case2 ys xs ih =>
    rw [List.forall_mem_cons] at hxs
    obtain ⟨-, hys⟩ := h.shape hxs.1.node
    exact List.forall_mem_append.2 ⟨fun y hy => ⟨hxs.1.operand y hy, hys y hy⟩, ih hxs.2⟩
  | case3 op' ys xs hne ih =>
    rw [List.forall_mem_cons] at hxs
    exact List.forall_mem_cons.2 ⟨⟨hxs.1, by simpa [isLogical] using hne⟩, ih hxs.2⟩
  | case4 x xs hne ih =>
    rw [List.forall_mem_cons] at hxs
    refine List.forall_mem_cons.2 ⟨⟨hxs.1, ?_⟩, ih hxs.2⟩
    cases x with
    | logical o ys => exact (hne o ys rfl).elim
    | _ => rfl

theorem logic {xs : List Symbolic} (hxs : ∀ x ∈ xs, Everywhere P x) :
    Everywhere P (logic op xs) := by
  have hflat : ∀ x ∈ Symbolic.flatten op xs, Everywhere P x ∧ x.isLogical op = false :=
    h.flatten hxs
  unfold Symbolic.logic
  split
  · exact h.truth
  · exact h.truth
  · next x hleft => exact (hflat x (mem_of_remaining hleft (by simp))).1
  · next ys hne hone hleft =>
    have hys y (hy : y ∈ ys) := hflat y (mem_of_remaining hleft hy)
    have hlen : 2 ≤ ys.length := by
      match ys with
      | [] => exact absurd rfl hne
      | [y] => exact absurd rfl (hone y)
      | _ :: _ :: _ => simp
    have hfixed := logic_of_remaining hleft (fun x hx => (hflat x hx).2) hlen
    exact .intro (h.other rfl ⟨hlen, fun y hy => (hys y hy).2⟩ hfixed) fun y hy => (hys y hy).1

end Refines

theorem Refines.refl : Refines Shape where
  shape := id
  other _ hs _ := hs

theorem isValue_of_isNumber (h : isNumber x = false) (c : Float) : x.isValue c = false := by
  cases x with
  | number => cases h
  | _ => rfl

theorem isNumber_of_mem_others {xs : List Symbolic} (h : x ∈ others xs) : x.isNumber = false := by
  simpa using (List.mem_filter.1 h).2

/-- Without its number, a product of two factors or more is one. -/
theorem Shape.rest {xs : List Symbolic} (hne : ∀ x, xs ≠ [x])
    (h : Shape (.product (.number c :: xs))) : Shape (.product xs) := by
  obtain ⟨hlen, hproducts, hnumbers, -⟩ := h
  rw [List.forall_mem_cons] at hproducts
  rw [List.tail_cons] at hnumbers
  refine ⟨?_, hproducts.2, fun x hx => hnumbers x (List.mem_of_mem_tail hx), ?_⟩
  · match xs with
    | [] => simp at hlen
    | [x] => exact absurd rfl (hne x)
    | _ :: _ :: _ => simp
  · exact fun x hx => isValue_of_isNumber (hnumbers x (List.mem_of_mem_head? hx)) 1

theorem passed_everywhere (hnumber : ∀ x, P (.number x))
    (hrest : ∀ {c xs}, (∀ x, xs ≠ [x]) → P (.product (.number c :: xs)) → P (.product xs)) :
    Passed (Everywhere P) where
  number := .leaf (hnumber _) rfl
  sum h := h.operand
  product h := h.operand
  power h := by simpa [operands] using h.operand
  rest hne h := .intro (hrest hne h.node) fun x hx => h.operand x (List.mem_cons_of_mem _ hx)

theorem passed_shape : Passed (Everywhere Shape) :=
  passed_everywhere (fun _ => trivial) Shape.rest

theorem shape_withCoefficient {ps : List Symbolic} (hnumbers : ∀ p ∈ ps, p.isNumber = false)
    (hproducts : ps.any isProduct = false) (hlen : 2 ≤ (withCoefficient k ps).length) :
    Shape (.product (withCoefficient k ps)) := by
  have hsorted : ∀ p ∈ sorted ps, p.isNumber = false := fun p hp => hnumbers p (mem_sorted.1 hp)
  refine ⟨hlen, forall_mem_withCoefficient rfl (by simpa using hproducts), ?_, ?_⟩
  · unfold withCoefficient
    split
    · exact hsorted
    · exact fun x hx => hsorted x (List.mem_of_mem_tail hx)
  · unfold withCoefficient
    split
    · next hk => simpa [isValue, number?, bne] using hk
    · exact fun x hx => isValue_of_isNumber (hsorted x (List.mem_of_mem_head? hx)) 1

theorem Call.Forms.shape {c : Call} (h : c.Forms s) : Shape s := by
  cases h with
  | sum hlen => exact hlen.trans_eq (sorted_perm _).length_eq.symm
  | product _ hproducts _ hlen =>
    exact shape_withCoefficient (fun p hp => isNumber_of_mem_others hp) hproducts hlen
  | power hplain => simpa [isPlainPower, Shape, and_assoc] using hplain

/-- What sums, products and powers give of well-shaped operands is well-shaped. -/
theorem Call.shape_result (c : Call) (hc : ∀ x ∈ c.operands, Everywhere Shape x) :
    Everywhere Shape c.result :=
  result_of_forms passed_shape (fun _ _ _ _ hforms hs => .intro hforms.shape hs) c hc

/-- What the operations put together from numbers, truth values and symbols. -/
inductive Built : Symbolic → Prop
  | number : Built (number x)
  | truth : Built (truth b)
  | symbol : Built (symbol x)
  | add : (∀ x ∈ xs, Built x) → Built (add xs)
  | mul : (∀ x ∈ xs, Built x) → Built (mul xs)
  | pow : Built b → Built e → Built (pow b e)
  | neg : Built x → Built (neg x)
  | sub : Built x → Built y → Built (sub x y)
  | div : Built x → Built y → Built (div x y)
  | mod : Built x → Built y → Built (mod x y)
  | apply : (∀ x ∈ xs, Built x) → Built (apply f xs)
  | relate : Built x → Built y → Built (relate op x y)
  | not : Built x → Built (not x)
  | logic : (∀ x ∈ xs, Built x) → Built (logic op xs)

/-- By induction on how a tree is put together: a property that refines the shape of nodes holds at
every node, if sums, products and powers pass it on. -/
theorem everywhere_of_built (h : Built s) (hP : Refines P)
    (hresult : ∀ c : Call, (∀ x ∈ c.operands, Everywhere P x) → Everywhere P c.result) :
    Everywhere P s := by
  have hadd {xs : List Symbolic} (hxs : ∀ x ∈ xs, Everywhere P x) : Everywhere P (add xs) :=
    hresult (.add xs) hxs
  have hmul {xs : List Symbolic} (hxs : ∀ x ∈ xs, Everywhere P x) : Everywhere P (mul xs) :=
    hresult (.mul xs) hxs
  have hpow {b e} (hb : Everywhere P b) (he : Everywhere P e) : Everywhere P (pow b e) :=
    hresult (.pow b e) (by simpa [Call.operands] using ⟨hb, he⟩)
  have hneg {x} (hx : Everywhere P x) : Everywhere P (neg x) :=
    hmul (by simpa using ⟨hP.number, hx⟩)
  induction h with
  | number => exact hP.number
  | truth => exact hP.truth
  | symbol => exact hP.symbol
  | add _ ih => exact hadd ih
  | mul _ ih => exact hmul ih
  | pow _ _ ihb ihe => exact hpow ihb ihe
  | neg _ ih => exact hneg ih
  | sub _ _ ihx ihy => exact hadd (by simpa using ⟨ihx, hneg ihy⟩)
  | div _ _ ihx ihy => exact hmul (by simpa using ⟨ihx, hpow ihy hP.number⟩)
  | mod _ _ ihx ihy => exact hP.mod ihx ihy
  | @apply xs f _ ih =>
    rcases apply_cases f xs with ⟨x, -, rfl, hroot⟩ | ⟨hf, hcall⟩
    · rw [hroot]
      exact hpow (ih x List.mem_cons_self) hP.number
    · rw [hcall]
      exact hP.call hf ih
  | relate _ _ ihx ihy => exact hP.relate ihx ihy
  | not _ ih => exact hP.not ih
  | logic _ ih => exact hP.logic ih

/-- Every node of what is put together is well-shaped. -/
theorem everywhere_shape (h : Built s) : Everywhere Shape s :=
  everywhere_of_built h .refl Call.shape_result

/-- A number is distributed over a sum, a root inverted and a comparison negated. -/
theorem everywhere_shape_mixed :
    ∃ s, Built s ∧ s.constructorText =
        "And(GreaterThan(Add(Integer(2), Mul(Integer(2), Symbol('a'))), " ++
          "Mul(Symbol('b'), Pow(Symbol('a'), Float('-0.5', precision=53)))), Not(Symbol('c')))" ∧
      Everywhere Shape s := by
  have hsum : Built (mul [number 2, add [symbol "a", number 1]]) :=
    .mul (by simpa using ⟨.number, .add (by simpa using ⟨.symbol, .number⟩)⟩)
  have hquotient : Built (div (symbol "b") (apply "sqrt" [symbol "a"])) :=
    .div .symbol (.apply (by simpa using .symbol))
  have hall : Built (logic .and [not (relate .lt (mul [number 2, add [symbol "a", number 1]])
      (div (symbol "b") (apply "sqrt" [symbol "a"]))), not (symbol "c")]) :=
    .logic (by simpa using ⟨.not (.relate hsum hquotient), .not .symbol⟩)
  exact ⟨_, hall, by decide +kernel, everywhere_shape hall⟩

theorem refines_fixed : Refines fun s => s.Shape ∧ s.Fixed where
  shape h := h.1
  other _ hs hfixed := ⟨hs, hfixed⟩

theorem passed_fixed : Passed (Everywhere fun s => s.Shape ∧ s.Fixed) :=
  passed_everywhere (fun _ => ⟨trivial, trivial⟩) fun hne h => ⟨h.1.rest hne, trivial⟩

/-- Every remainder and every connective in what is put together stays as it is, if it is put
together again. -/
theorem everywhere_fixed (h : Built s) : Everywhere Fixed s := by
  have hforms {c s} (hforms : Call.Forms c s) : s.Fixed := by cases hforms <;> trivial
  have hall := everywhere_of_built h refines_fixed fun c hc => Call.result_of_forms passed_fixed
    (fun _ _ _ _ hnode hs => .intro ⟨hnode.shape, hforms hnode⟩ hs) c hc
  exact hall.mono fun _ hs => hs.2

theorem Built.ofUnary (hx : Built x) : Built (ofUnary op x) := by
  cases op with
  | pos => exact hx
  | neg => exact hx.neg
  | not => exact hx.not

theorem Built.ofBinary (hx : Built x) (hy : Built y) : Built (ofBinary op x y) := by
  cases op with
  | add => exact .add (by simpa using ⟨hx, hy⟩)
  | sub => exact hx.sub hy
  | mul => exact .mul (by simpa using ⟨hx, hy⟩)
  | div => exact hx.div hy
  | mod => exact hx.mod hy
  | pow => exact hx.pow hy

end Symbolic

/-- Every expression is turned into a tree that is put together by the operations. -/
theorem Expr.built (e : Expr) : e.symbolic.Built := by
  induction e using Expr.induct with
  | number => exact .number
  | bool => exact .truth
  | var => exact .symbol
  | call f args sp ih =>
    rw [symbolic, symbolicList_eq]
    exact .apply (List.forall_mem_map.2 ih)
  | unary op e sp ih => exact ih.ofUnary
  | binary op l r sp ihl ihr => exact ihl.ofBinary ihr
  | compare e rest sp ihe ihr =>
    exact .logic (forall_mem_relations (fun _ _ _ hx hy => hx.relate hy) ihe ihr)
  | logical op es sp ih =>
    rw [symbolic, symbolicList_eq]
    exact .logic (List.forall_mem_map.2 ih)

end Formulae
