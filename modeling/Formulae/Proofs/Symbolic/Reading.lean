import Formulae.Proofs.Symbolic.Formed
import Formulae.Proofs.Symbolic.Numbers
import Formulae.Proofs.Text.Characters

namespace Formulae.Symbolic
set_option autoImplicit true

/-- The beginnings of the texts of trees. -/
inductive Head where
  | number (whole : Bool) | truth (value : Bool) | symbol | sum | product | power | remainder
  | call | relation (op : CmpOp) | negation | logical (op : BoolOp)
deriving DecidableEq

namespace Head

def text : Head → String
  | number whole => if whole then "Integer(" else "Float("
  | truth b => if b then "true" else "false"
  | symbol => "Symbol("
  | sum => "Add("
  | product => "Mul("
  | power => "Pow("
  | remainder => "Mod("
  | call => "Function("
  | relation op => op.relationName ++ "("
  | negation => "Not("
  | logical .and => "And("
  | logical .or => "Or("

def all : List Head :=
  [number true, number false, truth true, truth false, symbol, sum, product, power, remainder, call,
    negation, logical .and, logical .or] ++ [.lt, .le, .gt, .ge, .eq, .ne].map relation

theorem mem_all (a : Head) : a ∈ all := by
  rcases a with (_ | _) | (_ | _) | _ | _ | _ | _ | _ | _ | (_ | _ | _ | _ | _ | _) | _ | (_ | _) <;>
    decide

/-- No beginning is the beginning of another. -/
theorem eq_of_isPrefix {a b : Head} (h : a.text.toList <+: b.text.toList) : a = b := by
  have hall : ∀ a ∈ all, ∀ b ∈ all, a.text.toList <+: b.text.toList → a = b := by decide +kernel
  exact hall a (mem_all a) b (mem_all b) h

theorem append_inj {a b : Head} (h : a.text.toList ++ r = b.text.toList ++ r') :
    a = b ∧ r = r' := by
  have hab : a = b := by
    rcases List.prefix_or_prefix_of_prefix (List.prefix_append a.text.toList r)
      (h ▸ List.prefix_append b.text.toList r') with hprefix | hprefix
    · exact eq_of_isPrefix hprefix
    · exact (eq_of_isPrefix hprefix).symm
  subst hab
  exact ⟨rfl, List.append_cancel_left h⟩

/-- No tree begins like what comes behind a tree. -/
theorem ne_of_append_eq {a : Head} (h : a.text.toList ++ r = c :: r') : c ≠ ')' ∧ c ≠ ',' := by
  have hall : ∀ a ∈ all,
      (a.text.toList.head?.all fun c => c != ')' && c != ',') = true ∧ a.text.toList ≠ [] := by
    decide +kernel
  obtain ⟨hhead, hne⟩ := hall a (mem_all a)
  cases ha : a.text.toList with
  | nil => exact absurd ha hne
  | cons d cs =>
    rw [ha, List.cons_append] at h
    rw [ha, List.head?_cons, (List.cons.inj h).1] at hhead
    simpa using hhead

end Head

/-- The head of a tree's text. -/
def head : Symbolic → Head
  | number x => .number (Number.integer? x).isSome
  | truth b => .truth b
  | symbol _ => .symbol
  | sum _ => .sum
  | product _ => .product
  | power _ _ => .power
  | remainder _ _ => .remainder
  | call _ _ => .call
  | relation op _ _ => .relation op
  | negation _ => .negation
  | logical op _ => .logical op

/-- The texts of operands with commas between them. -/
def operandTexts (xs : List Symbolic) : String := ", ".intercalate (constructorTexts xs)

/-- The text of a tree behind its head. -/
def body : Symbolic → String
  | number x =>
    if (Number.integer? x).isSome then numberText x ++ ")"
    else quoted (numberText x) ++ ", precision=53)"
  | truth _ => ""
  | symbol x => quoted x ++ ")"
  | sum xs | product xs | logical _ xs => operandTexts xs ++ ")"
  | power x y | remainder x y | relation _ x y =>
    x.constructorText ++ ", " ++ y.constructorText ++ ")"
  | call f xs => quoted f ++ ")(" ++ operandTexts xs ++ ")"
  | negation x => x.constructorText ++ ")"

theorem constructorText_eq (s : Symbolic) : s.constructorText = s.head.text ++ s.body := by
  cases s with
  | number x =>
    rw [constructorText, numberConstructor, head, body, numberText]
    cases Number.integer? x <;> simp [Head.text, String.append_assoc]
  | truth b => cases b <;> rfl
  | logical op xs =>
    cases op <;> simp only [constructorText, head, body, Head.text, operandTexts, String.append_assoc]
  | _ => simp only [constructorText, head, body, Head.text, operandTexts, String.append_assoc]

/-- May the name stand between quotes? -/
def Unquoted (name : String) : Prop := '\'' ∉ name.toList

theorem toList_quoted (name : String) : (quoted name).toList = '\'' :: (name.toList ++ ['\'']) := by
  have hquote : "'".toList = ['\''] := by decide
  simp [quoted, hquote]

theorem quoted_inj {x y : String} (hx : Unquoted x) (hy : Unquoted y)
    (h : (quoted x).toList ++ r = (quoted y).toList ++ r') : x = y ∧ r = r' := by
  simp only [toList_quoted, List.cons_append, List.append_assoc, List.nil_append] at h
  obtain ⟨hname, hrest⟩ := Text.append_cons_inj hx hy (List.cons.inj h).2
  exact ⟨String.toList_inj.1 hname, hrest⟩

/-- From what begins with a tree's text, the tree is read, if it is equal to itself, and what is
behind it. -/
def Readable (s : Symbolic) : Prop :=
  ∀ t r r', t.Formed Unquoted Unquoted →
    s.constructorText.toList ++ r = t.constructorText.toList ++ r' →
      r = r' ∧ ((s == s) = true → (s == t) = true)

theorem numberText_and_rest {x y : Float} (hhead : head (number x) = head (number y))
    (hbody : (body (number x)).toList ++ r = (body (number y)).toList ++ r') :
    numberText x = numberText y ∧ r = r' := by
  have hparen (x : Float) : ')' ∉ (numberText x).toList := fun h => (mem_numberText h).1 rfl
  have hquote (x : Float) : Unquoted (numberText x) := fun h => (mem_numberText h).2 rfl
  simp only [head, Head.number.injEq] at hhead
  simp only [body, hhead] at hbody
  split at hbody
  · have hclose : ")".toList = [')'] := by decide
    simp only [String.toList_append, List.append_assoc, hclose, List.cons_append,
      List.nil_append] at hbody
    obtain ⟨hname, hrest⟩ := Text.append_cons_inj (hparen x) (hparen y) hbody
    exact ⟨String.toList_inj.1 hname, hrest⟩
  · rw [String.toList_append, String.toList_append, List.append_assoc, List.append_assoc] at hbody
    obtain ⟨hname, hrest⟩ := quoted_inj (hquote x) (hquote y) hbody
    exact ⟨hname, List.append_cancel_left hrest⟩

/-- The texts of operands, each with a comma before it. -/
def laterTexts (xs : List Symbolic) : List Char :=
  xs.flatMap fun x => ',' :: ' ' :: x.constructorText.toList

theorem constructorTexts_eq (xs : List Symbolic) : constructorTexts xs = xs.map constructorText := by
  induction xs with
  | nil => rfl
  | cons x xs ih => rw [constructorTexts, ih, List.map_cons]

theorem toList_operandTexts_cons (x : Symbolic) (xs : List Symbolic) :
    (operandTexts (x :: xs)).toList = x.constructorText.toList ++ laterTexts xs := by
  have hcomma : ", ".toList = [',', ' '] := by decide
  rw [operandTexts, constructorTexts_eq, List.map_cons, Grammar.toList_intercalate_cons,
    List.flatMap_map, hcomma]
  rfl

variable {xs ys : List Symbolic}

theorem readable_laterTexts (hxs : ∀ x ∈ xs, Readable x) (hys : ∀ y ∈ ys, y.Formed Unquoted Unquoted)
    (h : laterTexts xs ++ ')' :: r = laterTexts ys ++ ')' :: r') :
    r = r' ∧ (beqList xs xs = true → beqList xs ys = true) := by
  induction xs generalizing ys with
  | nil =>
    cases ys with
    | nil => exact ⟨(List.cons.inj h).2, id⟩
    | cons y ys => cases (List.cons.inj h).1
  | cons x xs ih =>
    cases ys with
    | nil => cases (List.cons.inj h).1
    | cons y ys =>
      rw [List.forall_mem_cons] at hxs hys
      simp only [laterTexts, List.flatMap_cons, List.cons_append, List.append_assoc, List.cons.injEq,
        true_and] at h
      obtain ⟨hrest, hfirst⟩ := hxs.1 y _ _ hys.1 h
      obtain ⟨hend, hlater⟩ := ih hxs.2 hys.2 hrest
      refine ⟨hend, fun hself => ?_⟩
      simp only [beqList, Bool.and_eq_true] at hself ⊢
      exact ⟨hfirst hself.1, hlater hself.2⟩

theorem readable_operandTexts (hxs : ∀ x ∈ xs, Readable x) (hys : ∀ y ∈ ys, y.Formed Unquoted Unquoted)
    (h : (operandTexts xs ++ ")").toList ++ r = (operandTexts ys ++ ")").toList ++ r') :
    r = r' ∧ (beqList xs xs = true → beqList xs ys = true) := by
  have hclose : ")".toList = [')'] := by decide
  have hnone : (operandTexts []).toList = [] := by rfl
  rw [String.toList_append, String.toList_append, hclose, List.append_assoc, List.append_assoc,
    List.singleton_append, List.singleton_append] at h
  have hclosed {x : Symbolic} {cs r} : x.constructorText.toList ++ cs ≠ ')' :: r := by
    rw [constructorText_eq, String.toList_append, List.append_assoc]
    exact fun hne => (Head.ne_of_append_eq hne).1 rfl
  cases xs with
  | nil =>
    cases ys with
    | nil => exact ⟨(List.cons.inj (List.append_cancel_left h)).2, id⟩
    | cons y ys =>
      rw [hnone, toList_operandTexts_cons, List.append_assoc] at h
      exact (hclosed h.symm).elim
  | cons x xs =>
    cases ys with
    | nil =>
      rw [hnone, toList_operandTexts_cons, List.append_assoc] at h
      exact (hclosed h).elim
    | cons y ys =>
      rw [List.forall_mem_cons] at hxs hys
      rw [toList_operandTexts_cons, toList_operandTexts_cons, List.append_assoc,
        List.append_assoc] at h
      obtain ⟨hrest, hfirst⟩ := hxs.1 y _ _ hys.1 h
      obtain ⟨hend, hlater⟩ := readable_laterTexts hxs.2 hys.2 hrest
      refine ⟨hend, fun hself => ?_⟩
      simp only [beqList, Bool.and_eq_true] at hself ⊢
      exact ⟨hfirst hself.1, hlater hself.2⟩

theorem readable_two {x y z w : Symbolic} (hx : Readable x) (hy : Readable y)
    (hz : z.Formed Unquoted Unquoted) (hw : w.Formed Unquoted Unquoted)
    (h : (x.constructorText ++ ", " ++ y.constructorText ++ ")").toList ++ r =
      (z.constructorText ++ ", " ++ w.constructorText ++ ")").toList ++ r') :
    r = r' ∧ ((x == x && y == y) = true → (x == z && y == w) = true) := by
  simp only [String.toList_append, List.append_assoc] at h
  obtain ⟨hrest, hfirst⟩ := hx z _ _ hz h
  obtain ⟨hend, hsecond⟩ := hy w _ _ hw (List.append_cancel_left hrest)
  refine ⟨List.append_cancel_left hend, fun hself => ?_⟩
  rw [Bool.and_eq_true] at hself ⊢
  exact ⟨hfirst hself.1, hsecond hself.2⟩

theorem readable_of_body {s : Symbolic}
    (h : ∀ t r r', t.Formed Unquoted Unquoted → s.head = t.head →
      s.body.toList ++ r = t.body.toList ++ r' →
        r = r' ∧ ((s == s) = true → (s == t) = true)) : Readable s := by
  intro t r r' ht htext
  rw [constructorText_eq, constructorText_eq t, String.toList_append, String.toList_append,
    List.append_assoc, List.append_assoc] at htext
  obtain ⟨hhead, hbody⟩ := Head.append_inj htext
  exact h t r r' ht hhead hbody

theorem readable_number (x : Float) : Readable (number x) := by
  refine readable_of_body fun t r r' ht hhead hbody => ?_
  cases t with
  | number y =>
    obtain ⟨htext, hrest⟩ := numberText_and_rest hhead hbody
    refine ⟨hrest, fun hself => ?_⟩
    rcases numberText_inj htext with rfl | hbeq
    · exact hself
    · exact hbeq
  | _ => cases hhead

theorem readable_symbol (hx : Unquoted x) : Readable (symbol x) := by
  refine readable_of_body fun t r r' ht hhead hbody => ?_
  cases t with
  | symbol y =>
    cases ht with
    | symbol hy =>
    simp only [body, String.toList_append, List.append_assoc] at hbody
    obtain ⟨rfl, hrest⟩ := quoted_inj hx hy hbody
    exact ⟨List.append_cancel_left hrest, id⟩
  | _ => cases hhead

theorem readable_call (hf : Unquoted f) (hxs : ∀ x ∈ xs, Readable x) : Readable (call f xs) := by
  refine readable_of_body fun t r r' ht hhead hbody => ?_
  cases t with
  | call g ys =>
    cases ht with
    | call hg hys =>
    simp only [body, String.toList_append, List.append_assoc] at hbody
    obtain ⟨rfl, hargs⟩ := quoted_inj hf hg hbody
    have hargs : (operandTexts xs ++ ")").toList ++ r = (operandTexts ys ++ ")").toList ++ r' := by
      simpa only [String.toList_append, List.append_assoc] using List.append_cancel_left hargs
    obtain ⟨hend, hargs⟩ := readable_operandTexts hxs hys hargs
    refine ⟨hend, fun hself => ?_⟩
    exact Bool.and_eq_true_iff.2 ⟨beq_self_eq_true f, hargs (Bool.and_eq_true_iff.1 hself).2⟩
  | _ => cases hhead

theorem readable_relation {x y : Symbolic} (hx : Readable x) (hy : Readable y) :
    Readable (relation op x y) := by
  refine readable_of_body fun t r r' ht hhead hbody => ?_
  cases t with
  | relation op' z w =>
    cases hhead
    cases ht with
    | relation hz hw =>
    obtain ⟨hrest, hsides⟩ := readable_two hx hy hz hw hbody
    refine ⟨hrest, fun hself => ?_⟩
    obtain ⟨hopx, hy⟩ := Bool.and_eq_true_iff.1 hself
    obtain ⟨hop, hx⟩ := Bool.and_eq_true_iff.1 hopx
    obtain ⟨hx, hy⟩ := Bool.and_eq_true_iff.1 (hsides (Bool.and_eq_true_iff.2 ⟨hx, hy⟩))
    exact Bool.and_eq_true_iff.2 ⟨Bool.and_eq_true_iff.2 ⟨hop, hx⟩, hy⟩
  | _ => cases hhead

theorem readable_negation {x : Symbolic} (hx : Readable x) : Readable (negation x) := by
  refine readable_of_body fun t r r' ht hhead hbody => ?_
  cases t with
  | negation z =>
    cases ht with
    | negation hz =>
    simp only [body, String.toList_append, List.append_assoc] at hbody
    obtain ⟨hrest, hsame⟩ := hx z _ _ hz hbody
    exact ⟨List.append_cancel_left hrest, hsame⟩
  | _ => cases hhead

theorem readable_logical (hxs : ∀ x ∈ xs, Readable x) : Readable (logical op xs) := by
  refine readable_of_body fun t r r' ht hhead hbody => ?_
  cases t with
  | logical op' ys =>
    cases hhead
    cases ht with
    | logical _ hys =>
    obtain ⟨hrest, hsame⟩ := readable_operandTexts hxs hys hbody
    refine ⟨hrest, fun hself => ?_⟩
    obtain ⟨hop, hself⟩ := Bool.and_eq_true_iff.1 hself
    exact Bool.and_eq_true_iff.2 ⟨hop, hsame hself⟩
  | _ => cases hhead

/-- The text of a tree determines it, by induction on the tree. -/
theorem Formed.readable {s : Symbolic} (hs : s.Formed Unquoted Unquoted) : Readable s := by
  induction hs with
  | number => exact readable_number _
  | truth =>
    refine readable_of_body fun t r r' ht hhead hbody => ?_
    cases t with
    | truth c =>
      cases hhead
      exact ⟨hbody, id⟩
    | _ => cases hhead
  | symbol hx => exact readable_symbol hx
  | sum _ _ ih =>
    refine readable_of_body fun t r r' ht hhead hbody => ?_
    cases t with
    | sum ys =>
      cases ht with
      | sum _ hys => exact readable_operandTexts ih hys hbody
    | _ => cases hhead
  | product _ ih =>
    refine readable_of_body fun t r r' ht hhead hbody => ?_
    cases t with
    | product ys =>
      cases ht with
      | product hys => exact readable_operandTexts ih hys hbody
    | _ => cases hhead
  | power _ _ ihb ihe =>
    refine readable_of_body fun t r r' ht hhead hbody => ?_
    cases t with
    | power c f =>
      cases ht with
      | power hc hf => exact readable_two ihb ihe hc hf hbody
    | _ => cases hhead
  | remainder _ _ ihx ihy =>
    refine readable_of_body fun t r r' ht hhead hbody => ?_
    cases t with
    | remainder z w =>
      cases ht with
      | remainder hz hw => exact readable_two ihx ihy hz hw hbody
    | _ => cases hhead
  | call hf _ ih => exact readable_call hf ih
  | relation _ _ ihx ihy => exact readable_relation ihx ihy
  | negation _ ih => exact readable_negation ih
  | logical _ _ ih => exact readable_logical ih

/-- Trees of the same text are equal, but if something in them is not equal to itself. -/
theorem beq_of_constructorText_eq {s t : Symbolic} (hs : s.Formed Unquoted Unquoted)
    (ht : t.Formed Unquoted Unquoted) (h : s.constructorText = t.constructorText)
    (hself : (s == s) = true) : (s == t) = true :=
  (hs.readable t [] [] ht (by rw [h])).2 hself

end Formulae.Symbolic
