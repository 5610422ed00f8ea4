import Formulae.Proofs.Symbolic.Formed
import Formulae.Proofs.Symbolic.Writing

namespace Formulae
open Grammar Outcome
open Token (IsName)
set_option autoImplicit true

namespace Symbolic

/-- A number is finite, and a sum begins with a term that binds at least as tightly as a sum. -/
def Firm : Symbolic → Prop
  | number x => x.isFinite = true
  | sum xs => ∃ x ∈ (inOrder xs).head?, 5 ≤ x.precedence
  | product xs => (coefficientOf xs).1.isFinite = true
  | _ => True

/-- What is written within a depth is firm throughout. -/
def FirmWithin : (depth : Nat) → Symbolic → Prop
  | 0, _ => False
  | depth + 1, s => s.Firm ∧ ∀ p ∈ s.parts, FirmWithin depth p

instance : (s : Symbolic) → Decidable s.Firm
  | number x => inferInstanceAs (Decidable (x.isFinite = true))
  | sum xs => inferInstanceAs (Decidable (∃ x ∈ (inOrder xs).head?, 5 ≤ x.precedence))
  | product xs => inferInstanceAs (Decidable ((coefficientOf xs).1.isFinite = true))
  | truth _ | symbol _ | power _ _ | remainder _ _ | call _ _ | relation _ _ _ | negation _
  | logical _ _ => inferInstanceAs (Decidable True)

instance FirmWithin.decidable : (depth : Nat) → (s : Symbolic) → Decidable (FirmWithin depth s)
  | 0, _ => inferInstanceAs (Decidable False)
  | depth + 1, s =>
    have := FirmWithin.decidable depth
    inferInstanceAs (Decidable (s.Firm ∧ ∀ p ∈ s.parts, FirmWithin depth p))

variable {d : Dialect} {text : Symbolic → String} {source : Symbolic → Expr}

theorem isName_sqrt (d : Dialect) : IsName d "sqrt" := by
  have hsqrt : "sqrt".toList = 's' :: ['q', 'r', 't'] := by decide +kernel
  exact ⟨by cases d <;> decide, _, _, hsqrt, by decide, by decide⟩

theorem written_numberText {x : Float} (hx : x.isFinite = true) :
    Written d (.ofPrecedence (number x).precedence) (numberText x) (signed x (literal x)) := by
  rw [precedence, numberText_eq]
  split
  · next hneg =>
    have hsigned := written_signed (x := x) ((written_literal (d := d) hx).anywhere .factor)
    rwa [if_pos hneg] at hsigned
  · next hpos =>
    rw [signed, if_neg hpos, String.empty_append]
    exact (written_literal hx).anywhere _

theorem written_sumText {xs : List Symbolic} (hfirst : ∃ x ∈ xs.head?, 5 ≤ x.precedence)
    (hparts : ∀ p ∈ sumParts xs, Reads d write text source p) :
    Written d .sum (sumText text xs) (sumSource source xs) := by
  obtain ⟨x, hx, hlevel⟩ := hfirst
  obtain ⟨ys, rfl⟩ := List.head?_eq_some_iff.1 hx
  simp only [sumParts, List.forall_mem_cons, List.forall_mem_map] at hparts
  obtain ⟨hfirst, hlater⟩ := hparts
  exact written_sum (hfirst.written.loosen (Level.depth_ofPrecedence_mono hlevel)) hlater

theorem written_quotientText {xs : List Symbolic} (hc : (coefficientOf xs).1.isFinite = true)
    (hparts : ∀ p ∈ quotientParts xs, Reads d write text source p) :
    Written d .term (quotientText text xs) (quotientSource source xs) := by
  rw [quotientParts, List.forall_mem_append] at hparts
  exact written_quotient hc (fun x hx => (hparts.1 x hx).factor) fun x hx => (hparts.2 x hx).factor

theorem isFinite_one : (1 : Float).isFinite = true := by decide +kernel

theorem written_power (hparts : ∀ p ∈ (power b e).parts, Reads d write text source p) :
    Written d (.ofPrecedence (power b e).precedence) (nodeText text (power b e))
      (nodeSource source (power b e)) := by
  rw [parts] at hparts
  rw [nodeText, nodeSource, precedence]
  by_cases hroot : e.isValue 0.5 = true
  · simp only [if_pos hroot, List.forall_mem_singleton] at hparts ⊢
    have hcall : Written d .application ("sqrt" ++ "(" ++ ", ".intercalate ([b].map text) ++ ")")
        (.call "sqrt" ([b].map source) .zero) :=
      written_call (isName_sqrt d) (by simpa using hparts.written.loosen (Nat.zero_le _))
    -- A root is written as a call, which may stand wherever a power may.
    have hlevel : (if e.isNegative = true then 6 else 9) ≤ 9 := by split <;> omega
    exact hcall.loosen (Level.depth_ofPrecedence_mono hlevel)
  simp only [if_neg hroot] at hparts ⊢
  by_cases hneg : e.isNegative = true
  · simp only [if_pos hneg] at hparts ⊢
    have hc : (coefficientOf [power b e]).1.isFinite = true := by
      simp only [coefficientOf]
      exact isFinite_one
    exact written_quotientText hc hparts
  · simp only [if_neg hneg, List.forall_mem_cons] at hparts ⊢
    obtain ⟨hb, he, -⟩ := hparts
    have hpow : BinaryOp.pow ∈ [BinaryOp.mul, .div, .pow] := by decide
    exact Written.tight hpow (hb.upTo 8) (he.below 7)

/-- The text of a node is read as its expression, if the texts of its parts are. -/
theorem written_node (hs : Formed (IsName d) (IsName d) s) (hfirm : s.Firm)
    (hparts : ∀ p ∈ s.parts, Reads d write text source p) :
    Written d (.ofPrecedence s.precedence) (nodeText text s) (nodeSource source s) := by
  cases hs with
  | number => exact written_numberText hfirm
  | @truth b => exact (written_truth d b).anywhere _
  | symbol hx => exact (written_var hx).anywhere _
  | sum => exact written_sumText hfirm hparts
  | product => exact written_quotientText hfirm hparts
  | power => exact written_power hparts
  | @remainder x y =>
    simp only [parts, List.forall_mem_cons] at hparts
    obtain ⟨hx, hy, -⟩ := hparts
    have hspaced (s t : String) :
        s ++ " % " ++ t = s ++ " " ++ BinaryOp.mod.symbol ++ " " ++ t := by
      apply String.toList_inj.1
      simp [BinaryOp.symbol]
    rw [nodeText, hspaced]
    exact @Written.binary d _ _ _ _ .mod (hx.below 6) (hy.upTo 6)
  | call hf => exact written_call hf fun x hx => (hparts x hx).written.loosen (Nat.zero_le _)
  | relation =>
    simp only [parts, List.forall_mem_cons] at hparts
    obtain ⟨hx, hy, -⟩ := hparts
    exact written_relation (hx.upTo 4) (hy.upTo 4)
  | negation =>
    simp only [parts, List.forall_mem_cons] at hparts
    exact (hparts.1.below 3).not
  | @logical xs op hlen =>
    rw [parts] at hparts
    have hspaced : Token.Spaced d (.connective op) := .inr ⟨op, rfl⟩
    cases op with
    | and => exact written_chain (t := .connective .and) .and hspaced .word hlen fun x hx =>
        (hparts x hx).upTo 2
    | or => exact written_chain (t := .connective .or) .or hspaced .word hlen fun x hx =>
        (hparts x hx).upTo 1

/-- By induction on the depth within which the text is written. -/
theorem reads_of_firm (hs : Formed (IsName d) (IsName d) s) (h : FirmWithin depth s) :
    Reads d (text? depth) (fun p => (text? depth p).getD "") (sourceWithin depth) s := by
  induction depth generalizing s with
  | zero => exact h.elim
  | succ depth ih =>
    obtain ⟨hfirm, hparts⟩ := h
    have hreads p (hp : p ∈ s.parts) := ih (hs.parts p hp) (hparts p hp)
    have ht := text?_node fun p hp => (hreads p hp).writes
    constructor
    · rw [ht, Option.getD_some]
    · rw [ht, Option.getD_some]
      exact written_node hs hfirm hreads

theorem written_text (hs : Formed (IsName d) (IsName d) s) (h : FirmWithin (depthFor s.size) s) :
    Written d (.ofPrecedence s.precedence) s.text s.source := by
  obtain ⟨hwrites, hwritten⟩ := reads_of_firm hs h
  rwa [text, hwrites]

end Symbolic

theorem Expr.relations_congr {x : Symbolic} {f : Expr → Expr}
    (h : ∀ r ∈ rest, (f r.2).symbolic = r.2.symbolic) :
    relations x (rest.map fun r => (r.1, f r.2)) = relations x rest := by
  induction rest generalizing x with
  | nil => rfl
  | cons r rest ih =>
    rw [List.forall_mem_cons] at h
    rw [List.map_cons, relations, relations, h.1, ih h.2]

@[simp] theorem Expr.symbolic_eraseSpans (e : Expr) : e.eraseSpans.symbolic = e.symbolic := by
  induction e using Expr.induct with
  | number | bool | var => rfl
  | call f args sp ih =>
    simp only [eraseSpans, symbolic, eraseSpansOfList_eq, symbolicList_eq, List.map_map]
    exact congrArg (Symbolic.apply f) (List.map_congr_left ih)
  | unary op e sp ih => simp only [eraseSpans, symbolic, ih]
  | binary op l r sp ihl ihr => simp only [eraseSpans, symbolic, ihl, ihr]
  | compare e rest sp ihe ihr =>
    simp only [eraseSpans, symbolic, eraseSpansOfRest_eq, ihe, relations_congr ihr]
  | logical op es sp ih =>
    simp only [eraseSpans, symbolic, eraseSpansOfList_eq, symbolicList_eq, List.map_map]
    exact congrArg (Symbolic.logic op) (List.map_congr_left ih)

theorem simplify_eq_ok (h : Expr.parse .equation code = .ok e) :
    simplify code = .ok e.symbolic.text := by
  simp only [simplify, Symbolic.ofText, h, ok_bind]
  rfl

/-- The text of a firm tree is read as the expression that it is written for. -/
theorem Symbolic.read_text {s : Symbolic} (hs : Formed (IsName .equation) (IsName .equation) s)
    (h : FirmWithin (depthFor s.size) s) :
    (Expr.parse .equation s.text).map Expr.eraseSpans = .ok s.source ∧
      ofText s.text = .ok s.source.symbolic := by
  have hread := (written_text hs h).parse
  obtain ⟨e, he, htree⟩ := map_eq_ok.1 hread
  refine ⟨hread, ?_⟩
  rw [← htree, Expr.symbolic_eraseSpans]
  simp only [ofText, he, ok_bind]
  rfl

end Formulae
