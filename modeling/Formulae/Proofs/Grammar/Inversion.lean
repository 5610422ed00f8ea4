import Formulae.Grammar.Block
import Formulae.Proofs.Outcome

namespace Formulae.Grammar
open Outcome
set_option autoImplicit true

/-- No separator, or one with what follows it, and perhaps further ones. -/
theorem chain_eq_ok {sep? : Token → Option ω} {p : Parser α}
    (h : chain sep? p (bound + 1) ls = .ok (more, rest)) :
    more = [] ∧ rest = ls ∨ ∃ l ts s a ms more', ls = l :: ts ∧ sep? l.token = some s ∧
      p ts = .ok (a, ms) ∧ chain sep? p bound ms = .ok (more', rest) ∧ more = (s, a) :: more' := by
  cases ls with
  | nil =>
    cases h
    exact .inl ⟨rfl, rfl⟩
  | cons l ls =>
    unfold chain at h
    split at h
    · cases h
      exact .inl ⟨rfl, rfl⟩
    · next s hs =>
      obtain ⟨⟨a, ms⟩, ha, h⟩ := bind_eq_ok.1 h
      obtain ⟨⟨more', ms'⟩, hmore, h⟩ := bind_eq_ok.1 h
      cases h
      exact .inr ⟨l, ls, s, a, ms, more', rfl, hs, ha, hmore, rfl⟩

theorem connected_eq_ok (h : connected op sep? bound p ls = .ok (e, rest)) :
    ∃ first ms more, p ls = .ok (first, ms) ∧ chain sep? p bound ms = .ok (more, rest) ∧
      e = joined op first more := by
  obtain ⟨⟨first, ms⟩, hfirst, h⟩ := bind_eq_ok.1 h
  obtain ⟨⟨more, ms'⟩, hmore, h⟩ := bind_eq_ok.1 h
  cases h
  exact ⟨first, ms, more, hfirst, hmore, rfl⟩

theorem leftGrouped_eq_ok (h : leftGrouped op? bound p ls = .ok (e, rest)) :
    ∃ first ms more, p ls = .ok (first, ms) ∧ chain op? p bound ms = .ok (more, rest) ∧
      e = more.foldl (fun left x => between x.1 left x.2) first := by
  obtain ⟨⟨first, ms⟩, hfirst, h⟩ := bind_eq_ok.1 h
  obtain ⟨⟨more, ms'⟩, hmore, h⟩ := bind_eq_ok.1 h
  cases h
  exact ⟨first, ms, more, hfirst, hmore, rfl⟩

theorem comparison_eq_ok (h : comparison stop p bound ls = .ok (e, rest)) :
    ∃ first ms more, bitwise stop p bound ls = .ok (first, ms) ∧
      chain comparison? (bitwise stop p bound) bound ms = .ok (more, rest) ∧
      e = compared first more := by
  obtain ⟨⟨first, ms⟩, hfirst, h⟩ := bind_eq_ok.1 h
  obtain ⟨⟨more, ms'⟩, hmore, h⟩ := bind_eq_ok.1 h
  dsimp only at h
  split at h
  · split at h <;> cases h
    exact ⟨first, ms, more, hfirst, hmore, rfl⟩
  · cases h
    exact ⟨first, ms, more, hfirst, hmore, rfl⟩

/-- A sign and what it stands before, or an operand and perhaps the exponent of a power. -/
theorem factor_eq_ok (h : factor stop p (bound + 1) ls = .ok (e, rest)) :
    (∃ l ms op operand, ls = l :: ms ∧ sign? l.token = some op ∧
      factor stop p bound ms = .ok (operand, rest) ∧
      e = .unary op operand ⟨l.span.start, operand.span.stop⟩) ∨
    ∃ base ms, p ls = .ok (base, ms) ∧
      (e = base ∧ rest = ms ∨
        ∃ m ms' exponent, ms = m :: ms' ∧ m.token = .op .pow ∧
          factor stop p bound ms' = .ok (exponent, rest) ∧ e = between .pow base exponent) := by
  cases ls with
  | nil => cases h
  | cons l ls =>
    unfold factor at h
    split at h
    · next op hop =>
      obtain ⟨⟨operand, ms⟩, hoperand, h⟩ := bind_eq_ok.1 h
      cases h
      exact .inl ⟨l, ls, op, operand, rfl, hop, hoperand, rfl⟩
    · obtain ⟨⟨base, ms⟩, hbase, h⟩ := bind_eq_ok.1 h
      refine .inr ⟨base, ms, hbase, ?_⟩
      dsimp only at h
      split at h
      · obtain ⟨⟨exponent, ms⟩, hexponent, h⟩ := bind_eq_ok.1 h
        cases h
        exact .inr ⟨_, _, exponent, rfl, rfl, hexponent, rfl⟩
      · cases h
        exact .inl ⟨rfl, rfl⟩

theorem negation_eq_ok (h : negation stop p bound ls = .ok (e, rest)) :
    comparison stop p bound ls = .ok (e, rest) ∨
      ∃ l ms operand, ls = l :: ms ∧ l.token = .notWord ∧
        negation stop p bound ms = .ok (operand, rest) ∧
        e = .unary .not operand ⟨l.span.start, operand.span.stop⟩ := by
  cases ls with
  | nil => exact .inl h
  | cons l ls =>
    unfold negation at h
    split at h
    · next hl =>
      obtain ⟨⟨operand, ms⟩, hoperand, h⟩ := bind_eq_ok.1 h
      cases h
      exact .inr ⟨l, ls, operand, rfl, hl, hoperand, rfl⟩
    · exact .inl h

/-- No argument, or an argument and perhaps further ones behind a comma. -/
theorem arguments_eq_ok (h : arguments stop p (bound + 1) ls = .ok (es, rest)) :
    es = [] ∧ rest = ls ∨ ∃ e ms, p ls = .ok (e, ms) ∧
      (es = [e] ∧ rest = ms ∨
        ∃ m ms' es', ms = m :: ms' ∧ m.token = .comma ∧
          arguments stop p bound ms' = .ok (es', rest) ∧ es = e :: es') := by
  unfold arguments at h
  split at h
  · cases h
    exact .inl ⟨rfl, rfl⟩
  · cases h
  · cases h
  · cases h
  · obtain ⟨⟨e, ms⟩, he, h⟩ := bind_eq_ok.1 h
    refine .inr ⟨e, ms, he, ?_⟩
    dsimp only at h
    split at h
    · obtain ⟨⟨es', ms'⟩, hes, h⟩ := bind_eq_ok.1 h
      cases h
      exact .inr ⟨_, _, es', rfl, rfl, hes, rfl⟩
    · cases h
    · cases h
      exact .inl ⟨rfl, rfl⟩

theorem parenthesized_eq_ok (h : parenthesized stop p l ls = .ok (e, rest)) :
    ∃ m, p ls = .ok (e, m :: rest) ∧ m.token = .rightParen := by
  unfold parenthesized at h
  split at h
  · cases h
  · obtain ⟨⟨e', ms⟩, he, h⟩ := bind_eq_ok.1 h
    dsimp only at h
    split at h <;> cases h
    exact ⟨_, he, rfl⟩

/-- A literal, a name, or an expression in parentheses. -/
theorem atom_eq_ok (h : atom stop p ls = .ok (e, rest)) :
    ∃ l ms, ls = l :: ms ∧
      ((∃ s n, l.token = .number s ∧ Decimal.read? s.toList = some n ∧
          e = .number s n.toFloat l.span ∧ rest = ms) ∨
        (∃ x, l.token = .ident x ∧ e = .var x l.span ∧ rest = ms) ∨
        (∃ b, l.token = .truth b ∧ e = .bool b l.span ∧ rest = ms) ∨
        ∃ m, l.token = .leftParen ∧ p ms = .ok (e, m :: rest) ∧ m.token = .rightParen) := by
  cases ls with
  | nil => cases h
  | cons l ls =>
    refine ⟨l, ls, rfl, ?_⟩
    rw [atom] at h
    split at h
    · next s hl =>
      split at h <;> cases h
      next n hn => exact .inl ⟨s, n, hl, hn, rfl, rfl⟩
    · next x hl =>
      cases h
      exact .inr (.inl ⟨x, hl, rfl, rfl⟩)
    · next b hl =>
      cases h
      exact .inr (.inr (.inl ⟨b, hl, rfl, rfl⟩))
    · next hl =>
      obtain ⟨m, he, hm⟩ := parenthesized_eq_ok h
      exact .inr (.inr (.inr ⟨m, hl, he, hm⟩))
    · cases h
    · cases h
    · cases h

/-- A call from its name to a parenthesis, or an atom. -/
theorem primary_eq_ok (h : primary stop p bound ls = .ok (e, rest)) :
    atom stop p ls = .ok (e, rest) ∨
      ∃ l l' ms f es m, ls = l :: l' :: ms ∧ l.token = .ident f ∧ l'.token = .leftParen ∧
        arguments stop p bound ms = .ok (es, m :: rest) ∧ m.token = .rightParen ∧
        e = .call f es (.ofOffsets l.start m.stop) := by
  obtain ⟨⟨e', ms⟩, he, h⟩ := bind_eq_ok.1 h
  obtain ⟨rfl, rfl⟩ : e = e' ∧ rest = ms := by
    dsimp only at h
    split at h <;> cases h
    exact ⟨rfl, rfl⟩
  unfold callOrAtom at he
  split at he
  · obtain ⟨⟨es, ms⟩, hes, he⟩ := bind_eq_ok.1 he
    dsimp only at he
    split at he <;> cases he
    exact .inr ⟨_, _, _, _, es, _, rfl, rfl, rfl, hes, rfl, rfl⟩
  · exact .inl he

theorem wholeExpression_eq_ok (h : wholeExpression stop ls = .ok e) :
    expression stop (ls.length + 1) ls = .ok (e, []) := by
  unfold wholeExpression at h
  split at h
  · cases h
  · obtain ⟨⟨e', ms⟩, he, h⟩ := bind_eq_ok.1 h
    dsimp only at h
    split at h <;> cases h
    exact he

/-- A statement is a name, an assignment, and what is read as its value. -/
theorem statement_eq_ok : statement stop ls = .ok s ↔ ∃ l m ts, ls = l :: m :: ts ∧
    l.token = .ident s.target ∧ m.token = .assign s.op ∧ wholeExpression stop ts = .ok s.value := by
  constructor
  · intro h
    unfold statement at h
    split at h
    · split at h
      · obtain ⟨e, he, h⟩ := bind_eq_ok.1 h
        cases h
        exact ⟨_, _, _, rfl, rfl, rfl, he⟩
      · cases h
      · cases h
      · cases h
    · cases h
  · rintro ⟨⟨start, stop', x⟩, ⟨start', stop'', op⟩, ts, rfl, rfl, rfl, he⟩
    simp only [statement, he, ok_bind]
    rfl

end Formulae.Grammar
