import Formulae.Proofs.Symbolic.Source

namespace Formulae
open Grammar
open Token (IsName)
set_option autoImplicit true

namespace Grammar

theorem Written.enclose {wanted : Bool} (h : Written d (.ofPrecedence level) s e)
    (hl : wanted = false → least ≤ level) :
    Written d (.ofPrecedence least) (Symbolic.enclose wanted s) e := by
  cases wanted with
  | true => exact (h.loosen (Nat.zero_le _)).parens.anywhere _
  | false => exact h.loosen (Level.depth_ofPrecedence_mono (hl rfl))

end Grammar

namespace Symbolic

variable {d : Dialect} {write : Symbolic → Option String} {text : Symbolic → String}
  {source : Symbolic → Expr}

/-- The text of a part is read as the expression, at the level of its outermost operator. -/
structure Reads (d : Dialect) (write : Symbolic → Option String) (text : Symbolic → String)
    (source : Symbolic → Expr) (x : Symbolic) : Prop where
  writes : write x = some (text x)
  written : Written d (.ofPrecedence x.precedence) (text x) (source x)

theorem mapM_eq_map {f : α → Option β} {g : α → β} {xs : List α}
    (h : ∀ x ∈ xs, f x = some (g x)) : xs.mapM f = some (xs.map g) := by
  induction xs with
  | nil => rfl
  | cons x xs ih =>
    rw [List.forall_mem_cons] at h
    simp [List.mapM_cons, h.1, ih h.2]

/-- An operand in parentheses if it binds less tightly than asked for. -/
theorem Reads.below {x : Symbolic} (h : Reads d write text source x) (least : Nat) :
    Written d (.ofPrecedence least) (enclose (x.precedence < least) (text x)) (source x) :=
  h.written.enclose (by simp)

/-- An operand in parentheses if it binds as loosely as a level or more so. -/
theorem Reads.upTo {x : Symbolic} (h : Reads d write text source x) (level : Nat) :
    Written d (.ofPrecedence (level + 1)) (enclose (x.precedence ≤ level) (text x)) (source x) :=
  h.written.enclose (by simp)

/-- The literal of a finite number is written without a sign. -/
theorem written_literal {x : Float} (hx : x.isFinite = true) :
    Written d .atom (numberText x.abs) (literal x) := by
  obtain ⟨n, hn, -⟩ := read?_numberText hx
  have hwritten := written_number (d := d) hn
  simpa [literal, hn] using hwritten

theorem written_signed {x : Float} (h : Written d .factor s e) :
    Written d .factor ((if x < 0 then "-" else "") ++ s) (signed x e) := by
  unfold signed
  split
  · exact Written.sign (t := .op .sub) h .neg
  · rwa [String.empty_append]

/-- The text of the terms behind the first. -/
def laterText (text : Symbolic → String) (y : Symbolic) : String :=
  " " ++ y.signOf.symbol ++ " " ++ enclose (y.signless.precedence ≤ 5) (text y.signless)

theorem sumText?_eq {x : Symbolic} {xs : List Symbolic} (hx : write x = some (text x))
    (hxs : ∀ y ∈ xs, write y.signless = some (text y.signless)) :
    sumText? write (x :: xs) = some (text x ++ String.join (xs.map (laterText text))) := by
  have hlater : xs.mapM (fun y =>
      if y.isSubtracted then do
        let z := neg y
        return " - " ++ enclose (z.precedence ≤ 5) (← write z)
      else do return " + " ++ enclose (y.precedence ≤ 5) (← write y)) =
      some (xs.map (laterText text)) := by
    apply mapM_eq_map
    intro y hy
    have hwrite := hxs y hy
    unfold signless at hwrite
    unfold laterText signless signOf
    split
    · next hsub =>
      rw [if_pos hsub] at hwrite
      simp [hwrite, BinaryOp.symbol]
    · next hadd =>
      rw [if_neg hadd] at hwrite
      simp [hwrite, BinaryOp.symbol]
  simp only [sumText?, hx, hlater]
  rfl

theorem levels_signOf (y : Symbolic) : y.signOf.leftLevel = 5 ∧ y.signOf.rightLevel = 6 ∧
    y.signOf.precedence = 5 := by
  unfold signOf
  split <;> exact ⟨rfl, rfl, rfl⟩

theorem written_sum {xs : List Symbolic} (h : Written d .sum s e)
    (hxs : ∀ y ∈ xs, Reads d write text source y.signless) :
    Written d .sum (s ++ String.join (xs.map (laterText text)))
      (xs.foldl (fun e y => .binary y.signOf e (source y.signless) .zero) e) := by
  induction xs generalizing s e with
  | nil => simpa using h
  | cons y xs ih =>
    rw [List.forall_mem_cons] at hxs
    obtain ⟨hleft, hright, hlevel⟩ := levels_signOf y
    have hoperand : Written d (.ofPrecedence y.signOf.rightLevel)
        (enclose (y.signless.precedence ≤ 5) (text y.signless)) (source y.signless) := by
      rw [hright]
      exact hxs.1.upTo 5
    have hfirst : Written d (.ofPrecedence y.signOf.leftLevel) s e := by rwa [hleft]
    have hboth := hfirst.binary hoperand
    rw [hlevel] at hboth
    have hall := ih hboth hxs.2
    simpa [laterText, String.append_assoc] using hall

theorem intercalate_cons (sep s : String) (texts : List String) :
    sep.intercalate (s :: texts) = s ++ String.join (texts.map (sep ++ ·)) := by
  apply String.toList_inj.1
  rw [toList_intercalate_cons, String.toList_append, String.toList_join, List.flatMap_map]
  simp only [String.toList_append]

theorem written_times (hl : Written d .term s e) (hr : Written d .factor t r) :
    Written d .term (s ++ "*" ++ t) (.binary .mul e r .zero) := by
  have hmul : BinaryOp.mul ∈ [BinaryOp.mul, .div, .pow] := by decide
  exact Written.tight hmul hl hr

theorem written_over (hl : Written d .term s e) (hr : Written d .factor t r) :
    Written d .term (s ++ "/" ++ t) (.binary .div e r .zero) := by
  have hdiv : BinaryOp.div ∈ [BinaryOp.mul, .div, .pow] := by decide
  exact Written.tight hdiv hl hr

theorem written_productOfAll {es : List α} {text : α → String} {tree : α → Expr}
    (h : Written d .term s e) (hes : ∀ x ∈ es, Written d .factor (text x) (tree x)) :
    Written d .term ("*".intercalate (s :: es.map text)) (productOfAll e (es.map tree)) := by
  induction es generalizing s e with
  | nil => simpa [productOfAll] using h
  | cons x es ih =>
    rw [List.forall_mem_cons] at hes
    have hall := ih (written_times h hes.1) hes.2
    rw [intercalate_cons] at hall ⊢
    simpa [productOfAll, String.append_assoc] using hall

theorem Reads.factor {x : Symbolic} (h : Reads d write text source x) :
    Written d .factor (factorText x (text x)) (source x) :=
  h.upTo 6

theorem quotientText?_eq {xs : List Symbolic}
    (habove : ∀ x ∈ factorsAbove xs, write x = some (text x))
    (hbelow : ∀ x ∈ factorsBelow xs, write x = some (text x)) :
    quotientText? write xs = some (productText (coefficientOf xs).1
      ((factorsAbove xs).map fun x => factorText x (text x))
      ((factorsBelow xs).map fun x => factorText x (text x))) := by
  have hmap {ys : List Symbolic} (hys : ∀ x ∈ ys, write x = some (text x)) :
      ys.mapM (fun x => do return factorText x (← write x)) =
        some (ys.map fun x => factorText x (text x)) :=
    mapM_eq_map fun x hx => by simp [hys x hx]
  have habove := hmap habove
  have hbelow := hmap hbelow
  unfold factorsAbove at habove ⊢
  unfold factorsBelow at hbelow ⊢
  unfold quotientText?
  generalize coefficientOf xs = c at habove hbelow ⊢
  obtain ⟨c, ys⟩ := c
  simp only [habove, hbelow]
  rfl

/-- The text of what a product is divided by. -/
theorem written_divided {es : List Symbolic} (h : Written d .term s e)
    (hes : ∀ x ∈ es, Written d .factor (text x) (source x)) :
    Written d .term
      (s ++ match es.map text with
        | [] => ""
        | [t] => "/" ++ t
        | ts => "/(" ++ "*".intercalate ts ++ ")")
      (match es.map source with
        | [] => e
        | r :: rs => .binary .div e (productOfAll r rs) .zero) := by
  cases es with
  | nil => simpa using h
  | cons x es =>
    rw [List.forall_mem_cons] at hes
    cases es with
    | nil => simpa [productOfAll, String.append_assoc] using written_over h hes.1
    | cons y es =>
      have hall := written_productOfAll (hes.1.loosen (by decide)) hes.2
      have hparens := (hall.loosen (Nat.zero_le _)).parens.anywhere .factor
      have hjoin (u : String) : "/(" ++ u = "/" ++ ("(" ++ u) := by
        rw [← String.append_assoc]
        rfl
      simpa [hjoin, String.append_assoc] using written_over h hparens

theorem written_quotient {c : Float} (hc : c.isFinite = true) {above below : List Symbolic}
    (habove : ∀ x ∈ above, Written d .factor (text x) (source x))
    (hbelow : ∀ x ∈ below, Written d .factor (text x) (source x)) :
    Written d .term (productText c (above.map text) (below.map text))
      (quotientOf c (above.map source) (below.map source)) := by
  have hnumerator {t : String} {r : Expr} {xs : List Symbolic} (hfirst : Written d .factor t r)
      (hxs : ∀ x ∈ xs, Written d .factor (text x) (source x)) :
      Written d .term ((if c < 0 then "-" else "") ++ "*".intercalate (t :: xs.map text))
        (productOfAll (signed c r) (xs.map source)) := by
    have hall := written_productOfAll ((written_signed (x := c) hfirst).loosen (by decide)) hxs
    rw [intercalate_cons] at hall ⊢
    rwa [String.append_assoc] at hall
  have hliteral : Written d .factor (numberText c.abs) (literal c) :=
    (written_literal hc).loosen (by decide)
  unfold productText quotientOf
  cases hunit : c.abs != 1 with
  | true =>
    simp only [Bool.true_or, if_true]
    exact written_divided (hnumerator hliteral habove) hbelow
  | false =>
    cases above with
    | nil =>
      simp only [List.map_nil, List.isEmpty_nil, Bool.or_true, if_true]
      exact written_divided (hnumerator hliteral habove) hbelow
    | cons x above =>
      rw [List.forall_mem_cons] at habove
      simp only [List.map_cons, List.isEmpty_cons, Bool.or_false, Bool.false_eq_true, if_false]
      exact written_divided (hnumerator habove.1 habove.2) hbelow

end Symbolic

end Formulae
