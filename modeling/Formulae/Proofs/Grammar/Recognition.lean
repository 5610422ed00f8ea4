import Formulae.Proofs.Grammar.Completeness
import Formulae.Proofs.Grammar.Soundness
import Formulae.Proofs.Token.Lexing

namespace Formulae.Token
set_option autoImplicit true

theorem Scanned.inDialect (h : Scanned d t) : t.inDialect d = true := by
  have hsymbols : ∀ d, ∀ t ∈ symbols d, t.inDialect d = true := by
    intro d
    cases d <;> decide
  have hwords : ∀ d, ∀ x ∈ keywords ++ renderedKeywords, x.2.inDialect d = true := by
    intro d
    cases d <;> decide
  cases h with
  | symbol ht => exact hsymbols d t ht
  | @word c cs =>
    rcases ofWord_cases d (.ofList (c :: cs)) with hw | hw | hw
    · exact hwords d _ hw
    · rw [hw]
      cases d <;> rfl
    · rw [hw]
      cases d <;> rfl
  | number => cases d <;> rfl
  | dot => cases d <;> rfl

end Formulae.Token

namespace Formulae.Grammar
open Outcome
set_option autoImplicit true

/-- A list of tokens derives at most one tree. -/
theorem Derives.unique (h : Derives d .disjunction ts e) (h' : Derives d .disjunction ts e') :
    e = e' := by
  obtain ⟨ls, rfl⟩ : ∃ ls : List Lexeme, ts = ls.map (·.token) :=
    ⟨ts.map fun t => ⟨0, 0, t⟩, by simp [Function.comp_def]⟩
  obtain ⟨r, hr, rfl⟩ := wholeExpression_accepts h 0
  obtain ⟨r', hr', rfl⟩ := wholeExpression_accepts h' 0
  rw [hr] at hr'
  cases hr'
  rfl

/-- A text without faults in its tokens is read as a tree exactly if the tokens derive the tree. -/
theorem parse_eq_ok_iff_derives (h : Token.lexemes d text.toList = .ok ls) :
    (Expr.parse d text).map Expr.eraseSpans = .ok e ↔
      Derives d .disjunction (ls.map (·.token)) e := by
  have hparse : Expr.parse d text = wholeExpression (stopOf ls) ls := by
    simp only [Expr.parse, h, ok_bind]
  rw [hparse, map_eq_ok]
  constructor
  · rintro ⟨r, hr, rfl⟩
    exact wholeExpression_sound (fun x hx => (Token.lexemes_scanned h hx).inDialect) hr
  · exact fun hd => wholeExpression_accepts hd _

/-- A sign binds less tightly than a power, and an exponent may have one. -/
theorem derives_signed_power :
    Token.lexemes .rendered "!x ** -y".toList = .ok
        [⟨0, 1, .bang⟩, ⟨1, 2, .ident "x"⟩, ⟨3, 5, .op .pow⟩, ⟨6, 7, .op .sub⟩,
          ⟨7, 8, .ident "y"⟩] ∧
      Derives .rendered .disjunction
        [.bang, .ident "x", .op .pow, .op .sub, .ident "y"]
        (.unary .not
          (.binary .pow (.var "x" .zero) (.unary .neg (.var "y" .zero) .zero) .zero) .zero) := by
  have hlex : Token.lexemes .rendered "!x ** -y".toList = .ok
      [⟨0, 1, .bang⟩, ⟨1, 2, .ident "x"⟩, ⟨3, 5, .op .pow⟩, ⟨6, 7, .op .sub⟩,
        ⟨7, 8, .ident "y"⟩] := by
    decide +kernel
  refine ⟨hlex, (parse_eq_ok_iff_derives hlex).1 ?_⟩
  rfl

end Formulae.Grammar
