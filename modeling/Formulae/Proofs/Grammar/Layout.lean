import Formulae.Proofs.Grammar.Recognition
import Formulae.Proofs.Token.Respelled

namespace Formulae.Grammar
open Outcome
set_option autoImplicit true

theorem numerical_of_isFixed {t : Token} (h : t.IsFixed) : t.Numerical :=
  fun s hs => absurd hs (h.ne_number s)

theorem numerical_chain {links : List (Link ω)} (hts : ∀ t ∈ ts, t.Numerical)
    (hsep : ∀ x ∈ links, x.sep.IsFixed) (h : ∀ x ∈ links, ∀ t ∈ x.tokens, t.Numerical) :
    ∀ t ∈ ts ++ linkTokens links, t.Numerical := by
  intro t ht
  rcases List.mem_append.1 ht with ht | ht
  · exact hts t ht
  · obtain ⟨x, hx, rfl | ht⟩ := mem_linkTokens.1 ht
    · exact numerical_of_isFixed (hsep x hx)
    · exact h x hx t ht

theorem numerical_binary {ts us : List Token} (hts : ∀ t ∈ ts, t.Numerical)
    (hus : ∀ t ∈ us, t.Numerical) : ∀ t ∈ ts ++ .op o :: us, t.Numerical := by
  rw [List.forall_mem_append, List.forall_mem_cons]
  exact ⟨hts, nofun, hus⟩

/-- The numbers of what is read as a tree are numerals. -/
theorem Derives.numerical (h : Derives d l ts e) : ∀ t ∈ ts, t.Numerical := by
  induction h with
  | operand _ _ ih => exact ih
  | or _ _ hsep _ ih ihl => exact numerical_chain ih (fun x hx => (hsep x hx).isFixed) ihl
  | and _ _ hsep _ ih ihl => exact numerical_chain ih (fun x hx => (hsep x hx).isFixed) ihl
  | not _ ih =>
    rw [List.forall_mem_cons]
    exact ⟨nofun, ih⟩
  | compare _ _ hsep _ ih ihl => exact numerical_chain ih (fun x hx => (hsep x hx).isFixed) ihl
  | singleOr _ _ hsep _ ih ihl => exact numerical_chain ih (fun x hx => (hsep x hx).isFixed) ihl
  | singleAnd _ _ hsep _ ih ihl => exact numerical_chain ih (fun x hx => (hsep x hx).isFixed) ihl
  | sum _ _ _ ihl ihr => exact numerical_binary ihl ihr
  | term _ _ _ ihl ihr => exact numerical_binary ihl ihr
  | sign hsign _ ih =>
    rw [List.forall_mem_cons]
    exact ⟨numerical_of_isFixed hsign.isFixed, ih⟩
  | power _ _ ihl ihr => exact numerical_binary ihl ihr
  | call _ ih =>
    rw [List.forall_mem_append, List.forall_mem_cons, List.forall_mem_cons,
      List.forall_mem_singleton]
    refine ⟨⟨nofun, nofun, ?_⟩, nofun⟩
    intro t ht
    rcases mem_of_argumentTokens ht with rfl | ⟨a, ha, ht⟩
    · nofun
    · exact ih a ha t ht
  | number hs =>
    rw [List.forall_mem_singleton]
    rintro _ ⟨⟩
    exact Token.numeral_of_read? hs
  | var =>
    rw [List.forall_mem_singleton]
    nofun
  | truth =>
    rw [List.forall_mem_singleton]
    nofun
  | parens _ ih =>
    rw [List.forall_mem_append, List.forall_mem_cons, List.forall_mem_singleton]
    exact ⟨⟨nofun, ih⟩, nofun⟩

theorem inDialect_of_lexemes (h : Token.lexemes d cs = .ok ls) : InDialect d ls :=
  fun _ hx => (Token.lexemes_scanned h hx).inDialect

theorem numerical_of_wholeExpression (hd : InDialect d ls) (h : wholeExpression stop ls = .ok e) :
    ∀ l ∈ ls, l.token.Numerical := by
  intro l hl
  exact (wholeExpression_sound hd h).numerical l.token (List.mem_map_of_mem hl)

theorem numerical_of_statement (hd : InDialect .equation ls) (h : statement stop ls = .ok s) :
    ∀ l ∈ ls, l.token.Numerical := by
  obtain ⟨l, m, ts, rfl, hl, hm, he⟩ := statement_eq_ok.1 h
  rw [List.forall_mem_cons, List.forall_mem_cons, hl, hm]
  exact ⟨nofun, nofun, numerical_of_wholeExpression hd.tail.tail he⟩

end Formulae.Grammar

namespace Formulae
open Grammar Outcome Text Token
set_option autoImplicit true

/-- The text is accepted, as an expression of the dialect or as a statement. -/
def Accepted (d : Dialect) (text : String) : Prop :=
  (∃ e, Expr.parse d text = .ok e) ∨ d = .equation ∧ ∃ s, Statement.parse text = .ok s

/-- The tokens of an accepted text are found without a fault, and all its numbers are numerals. -/
theorem Accepted.lexemes (h : Accepted d text) :
    ∃ ls, Token.lexemes d text.toList = .ok ls ∧ ∀ l ∈ ls, l.token.Numerical := by
  rcases h with ⟨e, h⟩ | ⟨rfl, s, h⟩
  · obtain ⟨ls, hls, h⟩ := bind_eq_ok.1 h
    exact ⟨ls, hls, numerical_of_wholeExpression (inDialect_of_lexemes hls) h⟩
  · obtain ⟨ls, hls, h⟩ := bind_eq_ok.1 h
    exact ⟨ls, hls, numerical_of_statement (inDialect_of_lexemes hls) h⟩

/-- A text has no more tokens and faults than characters. Its tokens stand at bytes of their own,
one behind the other, where they are spelled; and if the text is accepted, then there is no fault
and nothing else in it but white space and a comment at the end. -/
theorem text_accounted_for (d : Dialect) (text : String) :
    (lex d text.toList).length ≤ text.toList.length ∧
      (∀ l ∈ found d text.toList, l.start < l.stop ∧
        ∃ ys, StandsAt text.toList l.start l.stop ys ∧ IsSpelling d l.token ys) ∧
      (found d text.toList).Pairwise (fun l m => l.stop ≤ m.start) ∧
      (Accepted d text → lexemes d text.toList = .ok (found d text.toList) ∧
        ∀ xs c zs, text.toList = xs ++ c :: zs →
          Accounted 0 text.toList (found d text.toList) xs c) := by
  refine ⟨lexFrom_length_le d 0 0 _, ?_, found_ordered d _, ?_⟩
  · intro l hl
    obtain ⟨ys, hys, hspelled⟩ := stands_of_mem_found hl
    exact ⟨hys.lt hspelled.ne_nil, ys, hys, hspelled.isSpelling⟩
  · intro h
    obtain ⟨ls, hls, hnum⟩ := h.lexemes
    rw [found_of_lexemes hls]
    refine ⟨hls, ?_⟩
    intro xs c zs htext
    exact (laidOut_of_lexemes hls hnum).accounted htext

/-- Characters of several bytes, and a comment that looks like tokens. -/
theorem text_accounted_for_wide :
    Accepted .equation "été = 2.5e3 * x  # 1² ≠ 1" ∧
      found .equation "été = 2.5e3 * x  # 1² ≠ 1".toList =
        [⟨0, 5, .ident "été"⟩, ⟨6, 7, .assign .set⟩, ⟨8, 13, .number "2.5e3"⟩, ⟨14, 15, .op .mul⟩,
          ⟨16, 17, .ident "x"⟩] ∧
      ∀ xs c zs, "été = 2.5e3 * x  # 1² ≠ 1".toList = xs ++ c :: zs →
        Accounted 0 "été = 2.5e3 * x  # 1² ≠ 1".toList
          (found .equation "été = 2.5e3 * x  # 1² ≠ 1".toList) xs c := by
  have hread : (Statement.parse "été = 2.5e3 * x  # 1² ≠ 1").map (·.target) = .ok "été" := by
    decide +kernel
  obtain ⟨s, hs, -⟩ := map_eq_ok.1 hread
  have haccepted : Accepted .equation "été = 2.5e3 * x  # 1² ≠ 1" := .inr ⟨rfl, s, hs⟩
  obtain ⟨-, -, -, haccounted⟩ := text_accounted_for .equation "été = 2.5e3 * x  # 1² ≠ 1"
  exact ⟨haccepted, by decide +kernel, (haccounted haccepted).2⟩

/-- A number that is not a numeral takes characters behind it away, and is not accepted. -/
example : (found .equation "1٢+y".toList).map (·.token) = [.number "1٢", .ident "y"] := by
  decide +kernel

/-- What is read as an expression depends on the tokens only, but for the spans. -/
theorem wholeExpression_of_tokens (hd : InDialect d ls) (h : ms.map (·.token) = ls.map (·.token))
    (he : wholeExpression stop ls = .ok e) (stop' : Nat) :
    (wholeExpression stop' ms).map Expr.eraseSpans = .ok e.eraseSpans := by
  have hderives := wholeExpression_sound hd he
  rw [← h] at hderives
  exact map_eq_ok.2 (wholeExpression_accepts hderives stop')

theorem statement_of_tokens (hd : InDialect .equation ls)
    (h : ms.map (·.token) = ls.map (·.token)) (hs : statement stop ls = .ok s) (stop' : Nat) :
    (statement stop' ms).map Statement.eraseSpans = .ok s.eraseSpans := by
  obtain ⟨l, m, ls, rfl, hl, hm, he⟩ := statement_eq_ok.1 hs
  apply statement_accepts (wholeExpression_sound hd.tail.tail he)
  rw [h, List.map_cons, List.map_cons, hl, hm]

/-- Spellings of the tokens of a text with a blank between each two are read as these tokens again,
if its digits are ASCII digits or the text is accepted; and every text with these tokens is read as
the same expression and the same statement. -/
theorem spaced_tokens_read_alike {text : String} (h : tokens d text.toList = .ok ts)
    (hwords : List.Forall₂ (IsSpelling d) ts words) :
    (AsciiDigits text.toList ∨ Accepted d text → tokens d (spaced words) = .ok ts) ∧
    ∀ other : String, tokens d other.toList = .ok ts →
      (∀ e, Expr.parse d text = .ok e →
        (Expr.parse d other).map Expr.eraseSpans = .ok e.eraseSpans) ∧
      (∀ s, d = .equation → Statement.parse text = .ok s →
        (Statement.parse other).map Statement.eraseSpans = .ok s.eraseSpans) := by
  obtain ⟨ls, hls, rfl⟩ := map_eq_ok.1 h
  have hdialect := inDialect_of_lexemes hls
  constructor
  · intro hnum
    apply tokens_spaced h _ hwords
    rcases hnum with hdigits | haccepted
    · exact numerical_of_asciiDigits h hdigits
    · obtain ⟨ls', hls', hnum⟩ := haccepted.lexemes
      rw [hls] at hls'
      cases hls'
      rw [List.forall_mem_map]
      exact hnum
  · intro other hother
    obtain ⟨ms, hms, htokens⟩ := map_eq_ok.1 hother
    constructor
    · intro e he
      simp only [Expr.parse, hls, hms, ok_bind] at he ⊢
      exact wholeExpression_of_tokens hdialect htokens he (stopOf ms)
    · rintro s rfl hs
      simp only [Statement.parse, statementLine, hls, hms, ok_bind] at hs ⊢
      exact statement_of_tokens hdialect htokens hs (stopOf ms)

/-- Symbols that stand close together, and a word of rendered texts. -/
theorem spaced_tokens_read_alike_dense :
    ∃ ts, tokens .rendered "x<=.5&&!true  # x".toList = .ok ts ∧
      List.Forall₂ (IsSpelling .rendered) ts
        (["x", "<=", ".5", "&&", "!", "true"].map String.toList) ∧
      AsciiDigits "x<=.5&&!true  # x".toList ∧
      tokens .rendered "x <= .5 && ! true".toList = .ok ts ∧
      ∃ e, Expr.parse .rendered "x<=.5&&!true  # x" = .ok e ∧
        (Expr.parse .rendered "x <= .5 && ! true").map Expr.eraseSpans = .ok e.eraseSpans := by
  have hlex : tokens .rendered "x<=.5&&!true  # x".toList = .ok
      [.ident "x", .cmp .le, .number ".5", .doubled .and, .bang, .truth true] := by
    decide +kernel
  have hwords : List.Forall₂ (IsSpelling .rendered)
      [.ident "x", .cmp .le, .number ".5", .doubled .and, .bang, .truth true]
      (["x", "<=", ".5", "&&", "!", "true"].map String.toList) := by
    simp [IsSpelling, spelling, renderedKeywords, CmpOp.symbol]
  have hspaced : spaced (["x", "<=", ".5", "&&", "!", "true"].map String.toList) =
      "x <= .5 && ! true".toList := by
    decide +kernel
  have hdigits : AsciiDigits "x<=.5&&!true  # x".toList := by
    decide +kernel
  have hread : (Expr.parse .rendered "x<=.5&&!true  # x").map Expr.span = .ok ⟨0, 12⟩ := by
    decide +kernel
  obtain ⟨e, he, -⟩ := map_eq_ok.1 hread
  obtain ⟨hagain, hsame⟩ := spaced_tokens_read_alike hlex hwords
  rw [hspaced] at hagain
  have htokens := hagain (.inl hdigits)
  obtain ⟨hexpr, -⟩ := hsame "x <= .5 && ! true" htokens
  exact ⟨_, hlex, hwords, hdigits, htokens, e, he, hexpr e he⟩

end Formulae
