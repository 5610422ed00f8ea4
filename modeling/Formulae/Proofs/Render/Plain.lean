import Formulae.Grammar.Block
import Formulae.Proofs.Grammar.Legible
import Formulae.Proofs.Grammar.Written
import Formulae.Proofs.Text.Lines

namespace Formulae
open Grammar Outcome
open Text Token
set_option autoImplicit true

theorem Expr.argumentTexts_eq (es : List Expr) : argumentTexts es = es.map text := by
  induction es with
  | nil => rfl
  | cons e es ih => simp only [argumentTexts, ih, List.map_cons]

theorem Expr.operandTexts_eq (op : BoolOp) (es : List Expr) :
    operandTexts op es = es.map fun e => parenthesize op.operandLevel e e.text := by
  induction es with
  | nil => rfl
  | cons e es ih => simp only [operandTexts, ih, List.map_cons]

theorem Expr.comparisonTexts_toList (rest : List (CmpOp × Expr)) :
    (comparisonTexts rest).toList = rest.flatMap fun x =>
      ' ' :: x.1.symbol.toList ++
        ' ' :: (parenthesize CmpOp.operandLevel x.2 x.2.text).toList := by
  induction rest with
  | nil => rfl
  | cons x rest ih => simp [comparisonTexts, ih]

/-- The plain text is written for its tree, at the level that its precedence says. -/
theorem Legible.written_text (h : Legible (IsName d) e) :
    Written d (.ofPrecedence e.precedence) e.text e.eraseSpans := by
  have hparen {e : Expr} (least : Nat)
      (h : Written d (.ofPrecedence e.precedence) e.text e.eraseSpans) :
      Written d (.ofPrecedence least) (parenthesize least e e.text) e.eraseSpans :=
    h.parenthesize Level.depth_ofPrecedence_mono
  induction h with
  | number hs => exact (written_number hs).anywhere _
  | @bool b => exact (written_truth d b).anywhere _
  | var hx => exact (written_var hx).anywhere _
  | @call f args sp hf _ ih =>
    rw [Expr.text, Expr.eraseSpans, Expr.argumentTexts_eq, Expr.eraseSpansOfList_eq]
    exact written_call hf fun e he => (ih e he).loosen (Nat.zero_le _)
  | @unary e op sp _ ih =>
    rw [Expr.text, Expr.eraseSpans]
    cases op with
    | pos => exact Written.sign (t := .op .add) (hparen 7 ih) .pos
    | neg => exact Written.sign (t := .op .sub) (hparen 7 ih) .neg
    | not => exact (hparen 3 ih).not
  | @binary l r op sp _ _ ihl ihr =>
    rw [Expr.text, Expr.eraseSpans]
    exact (hparen op.leftLevel ihl).binary (hparen op.rightLevel ihr)
  | @compare e rest sp _ hne _ ihe ihr =>
    rw [Expr.text, Expr.eraseSpans, Expr.eraseSpansOfRest_eq]
    exact written_comparisons ((hparen 5 ihe).loosen (by decide)) hne
      (fun x hx => (hparen 5 (ihr x hx)).loosen (by decide)) (Expr.comparisonTexts_toList rest)
  | @logical es op sp hlen _ ih =>
    rw [Expr.text, Expr.eraseSpans, Expr.operandTexts_eq, Expr.eraseSpansOfList_eq]
    have hspaced : Token.Spaced d (.connective op) := .inr ⟨op, rfl⟩
    cases op with
    | and =>
      exact written_chain (t := .connective .and) .and hspaced .word hlen fun e he =>
        hparen 3 (ih e he)
    | or =>
      exact written_chain (t := .connective .or) .or hspaced .word hlen fun e he =>
        hparen 2 (ih e he)

structure Statement.Legible (d : Dialect) (s : Statement) : Prop where
  target : IsName d s.target
  value : Formulae.Legible (IsName d) s.value

theorem Statement.Legible.spells (h : Statement.Legible d s) :
    ∃ ts, Derives d .disjunction ts s.value.eraseSpans ∧
      Spells d s.text.toList (.ident s.target :: .assign s.op :: ts) := by
  obtain ⟨ts, hd, hs⟩ := h.value.written_text
  have hop : Token.assign s.op ∈ symbols d := by
    cases s.op with
    | set => cases d <;> decide
    | update op => cases d <;> cases op <;> decide
  refine ⟨ts, hd.loosen (Nat.zero_le _), ?_⟩
  simpa [Statement.text, Token.spelling] using h.target.spells.between (.inl hop) hs

theorem Statement.Legible.statementLine (h : Statement.Legible .equation s) :
    (Grammar.statementLine s.text.toList).map Statement.eraseSpans = .ok s.eraseSpans := by
  obtain ⟨ts, hd, hs⟩ := h.spells
  obtain ⟨ls, hls, hts⟩ := hs.lexes.lexemes
  simp only [Grammar.statementLine, hls, ok_bind]
  exact statement_accepts hd hts _

theorem Statement.Legible.beginsName (h : Statement.Legible d s) : BeginsName s.text.toList := by
  obtain ⟨ts, -, hs⟩ := h.spells
  obtain ⟨-, c, cs, hcs, hc, -⟩ := h.target
  refine ⟨⟨c, cs ++ (" " ++ s.op.symbol ++ " " ++ s.value.text).toList, ?_, hc⟩, hs.oneLine⟩
  simp [Statement.text, hcs]

theorem statementLines_texts {ss : List Statement} (n : Nat)
    (h : ∀ s ∈ ss, Statement.Legible .equation s) :
    (Grammar.statementLines n (ss.map fun s => s.text.toList)).map
      (·.map Statement.eraseSpans) = .ok (ss.map Statement.eraseSpans) := by
  induction ss generalizing n with
  | nil => rfl
  | cons s ss ih =>
    rw [List.forall_mem_cons] at h
    obtain ⟨s', hs', hline⟩ := map_eq_ok.1 h.1.statementLine
    obtain ⟨more, hmore, hlines⟩ := map_eq_ok.1 (ih (n + 1) h.2)
    simp only [List.map_cons, Grammar.statementLines, h.1.beginsName.not_blank, hs', onLine, hmore]
    simp [hline, hlines]

theorem Statement.parseBlock_blockText {ss : List Statement}
    (h : ∀ s ∈ ss, Statement.Legible .equation s) :
    (Statement.parseBlock (Statement.blockText ss)).map (·.map Statement.eraseSpans) =
      .ok (ss.map Statement.eraseSpans) := by
  have hlines : ∀ line ∈ ss.map fun s => s.text.toList, BeginsName line :=
    List.forall_mem_map.2 fun s hs => (h s hs).beginsName
  have htext : (Statement.blockText ss).toList = unlines (ss.map fun s => s.text.toList) := by
    simp [Statement.blockText, String.toList_intercalate, unlines, Function.comp_def]
  rw [Statement.parseBlock, htext, deindent_unlines hlines, lines_unlines hlines]
  exact statementLines_texts 1 h

theorem Statement.legible_of_statement (hscanned : ∀ x ∈ ls, Scanned .equation x.token)
    (h : Grammar.statement n ls = .ok s) : Statement.Legible .equation s := by
  unfold Grammar.statement at h
  split at h
  · next start stop x ts =>
    split at h
    · next start' stop' op ts =>
      obtain ⟨e, he, h⟩ := bind_eq_ok.1 h
      cases h
      rw [List.forall_mem_cons, List.forall_mem_cons] at hscanned
      exact ⟨hscanned.1.isName, Expr.legible_of_wholeExpression hscanned.2.2 he⟩
    · cases h
    · cases h
    · cases h
  · cases h

theorem Statement.legible_of_statementLine (h : Grammar.statementLine line = .ok s) :
    Statement.Legible .equation s := by
  obtain ⟨ls, hls, h⟩ := bind_eq_ok.1 h
  exact legible_of_statement (fun x hx => lexemes_scanned hls hx) h

theorem Grammar.onLine_eq_ok : onLine n line r = .ok a ↔ r = .ok a := by
  cases r <;> simp [onLine]

theorem Statement.legible_of_statementLines {ss : List Statement}
    (h : Grammar.statementLines n ls = .ok ss) : ∀ s ∈ ss, Statement.Legible .equation s := by
  fun_induction Grammar.statementLines n ls generalizing ss with
  | case1 =>
    cases h
    simp
  | case2 n line ls _ ih => exact ih h
  | case3 n line ls _ ih =>
    obtain ⟨s, hs, h⟩ := bind_eq_ok.1 h
    obtain ⟨more, hmore, h⟩ := bind_eq_ok.1 h
    cases h
    have hline := onLine_eq_ok.1 hs
    exact List.forall_mem_cons.2 ⟨legible_of_statementLine hline, ih hmore⟩

/-- Whatever is read, its plain text is read as the same, but for the spans. -/
theorem plain_text_parses_back :
    (∀ text e, Expr.parse .equation text = .ok e →
      (Expr.parse .equation e.text).map Expr.eraseSpans = .ok e.eraseSpans) ∧
    ∀ code ss, Statement.parseBlock code = .ok ss →
      (Statement.parseBlock (Statement.blockText ss)).map (·.map Statement.eraseSpans) =
        .ok (ss.map Statement.eraseSpans) :=
  ⟨fun _ _ h => (Expr.legible_of_parse h).written_text.parse,
    fun _ _ h => Statement.parseBlock_blockText (Statement.legible_of_statementLines h)⟩

/-- Parentheses that a tree needs stay, and the others go. -/
theorem plain_text_parses_back_nested :
    (∃ e, Expr.parse .equation "-((a) or b)**-(c) < (not d)" = .ok e ∧
      e.text = "-(a or b) ** -c < (not d)" ∧
      (Expr.parse .equation e.text).map Expr.eraseSpans = .ok e.eraseSpans) ∧
    ∃ ss, Statement.parseBlock "  x = (1)\n\n  y **= x  # twice" = .ok ss ∧
      Statement.blockText ss = "x = 1\ny **= x" ∧
      (Statement.parseBlock (Statement.blockText ss)).map (·.map Statement.eraseSpans) =
        .ok (ss.map Statement.eraseSpans) := by
  have hexpr : (Expr.parse .equation "-((a) or b)**-(c) < (not d)").map Expr.text =
      .ok "-(a or b) ** -c < (not d)" := by
    decide +kernel
  have hblock : (Statement.parseBlock "  x = (1)\n\n  y **= x  # twice").map
      Statement.blockText = .ok "x = 1\ny **= x" := by
    decide +kernel
  obtain ⟨e, he, htext⟩ := map_eq_ok.1 hexpr
  obtain ⟨ss, hss, hcode⟩ := map_eq_ok.1 hblock
  exact ⟨⟨e, he, htext, plain_text_parses_back.1 _ _ he⟩,
    ss, hss, hcode, plain_text_parses_back.2 _ _ hss⟩

end Formulae
