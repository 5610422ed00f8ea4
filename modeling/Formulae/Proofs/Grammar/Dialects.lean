import Formulae.Proofs.Grammar.Legible
import Formulae.Proofs.Grammar.Roles

namespace Formulae
open Grammar Outcome
set_option autoImplicit true

/-- The token that rendered texts have where equations have this one. -/
def Token.inRendered : Token → Token
  | ident x => ofWord .rendered x
  | t => t

def Lexeme.inRendered (l : Lexeme) : Lexeme := { l with token := l.token.inRendered }

namespace Token

theorem inRendered_of_ne (h : ∀ x, t ≠ ident x) : t.inRendered = t := by
  cases t with
  | ident x => exact absurd rfl (h x)
  | _ => rfl

theorem ofWord_rendered (word : String) :
    ofWord .rendered word = (ofWord .equation word).inRendered := by
  by_cases h : word ∈ ["true", "false"]
  · have hall : ∀ word ∈ ["true", "false"],
        ofWord .rendered word = (ofWord .equation word).inRendered := by decide
    exact hall word h
  · have hsame := ofWord_rendered_of_ne h
    rcases ofWord_cases .equation word with hw | hw | hw
    · rw [hsame, inRendered_of_ne (ne_ident_of_mem_keywords hw)]
    · rw [hsame, hw, inRendered_of_ne (by nofun)]
    · rw [hw, inRendered]

/-- The signs that only rendered texts have. -/
def renderedSymbols : List Token :=
  [doubled .and, doubled .or, single .and, single .or, bang]

theorem symbol?_rendered (cs : List Char) : symbol? .rendered cs =
    (symbol? .equation cs).or
      (renderedSymbols.find? fun t => t.spelling.toList.isPrefixOf cs) :=
  List.find?_append

/-- In an equation no token begins with a sign of rendered texts. -/
theorem scan_renderedSymbol (hs : symbol? .equation (c :: cs) = none)
    (ht : t ∈ renderedSymbols) (hp : t.spelling.toList.isPrefixOf (c :: cs) = true) (pos : Nat) :
    ∃ f, (scan .equation pos c cs).found = some (.error f) := by
  have hhead : ∀ t ∈ renderedSymbols, t.spelling.toList ≠ [] ∧
      ∀ c ∈ t.spelling.toList.head?, c ∈ ['&', '|', '!'] := by decide +kernel
  have hother : ∀ c ∈ ['&', '|', '!'], c ≠ '#' ∧ c ≠ '.' ∧ c.isDigit = false ∧
      Text.isIdentStart c = false ∧ Text.isWhiteSpace c = false := by decide
  obtain ⟨hne, hc⟩ := hhead t ht
  obtain ⟨a, as, hspelling⟩ := List.exists_cons_of_ne_nil hne
  rw [hspelling, List.isPrefixOf_iff_prefix, List.cons_prefix_cons] at hp
  obtain ⟨rfl, -⟩ := hp
  obtain ⟨hcomment, hdot, hdigit, hstart, hblank⟩ := hother a (hc a (by rw [hspelling]; rfl))
  simp only [scan, hs, startsNumber_cons hdot, hdigit, hstart, hblank, beq_iff_eq, hcomment, hdot,
    if_false, Bool.false_eq_true]
  split_ifs <;> exact ⟨_, rfl⟩

theorem scan_rendered (h : (scan .equation pos c cs).found.all (·.isOk) = true) :
    scan .rendered pos c cs =
      ⟨(scan .equation pos c cs).found.map (Except.map Lexeme.inRendered),
        (scan .equation pos c cs).more⟩ := by
  cases hs : symbol? .equation (c :: cs) with
  | some t =>
    have ht := inRendered_of_ne (ne_ident_of_mem_symbols (symbol?_mem hs))
    simp [scan, symbol?_rendered, hs, Lexeme.inRendered, ht, Except.map]
  | none =>
    cases hr : renderedSymbols.find? fun t => t.spelling.toList.isPrefixOf (c :: cs) with
    | some t =>
      have hp := List.find?_some hr
      obtain ⟨f, hf⟩ := scan_renderedSymbol hs (List.mem_of_find?_eq_some hr) hp pos
      rw [hf] at h
      cases h
    | none =>
      simp only [scan, symbol?_rendered, hs, hr, Option.or_none, ofWord_rendered]
      split_ifs <;> rfl

/-- The tokens of an equation are those of a rendered text, up to the two words. -/
theorem lexFrom_rendered {ls : List Lexeme} (h : lexFrom .equation skip pos cs = ls.map .ok) :
    lexFrom .rendered skip pos cs = (ls.map Lexeme.inRendered).map .ok := by
  fun_induction lexFrom .equation skip pos cs generalizing ls with
  | case1 skip pos =>
    obtain rfl := List.map_eq_nil_iff.1 h.symm
    rfl
  | case2 skip pos c cs ih => exact ih h
  | case3 pos c cs item rest x hx =>
    rename_i ih
    obtain ⟨l, ls, rfl, rfl, hrest⟩ := List.map_eq_cons_iff.1 h.symm
    have hscan : scan .rendered pos c cs = ⟨some (.ok l.inRendered), item.more⟩ := by
      rw [scan_rendered (by rw [hx]; rfl), hx]
      rfl
    simp only [lexFrom, hscan, ih hrest.symm, List.map_cons]
  | case4 pos c cs item rest hx =>
    rename_i ih
    have hscan : scan .rendered pos c cs = ⟨none, item.more⟩ := by
      rw [scan_rendered (by rw [hx]; rfl), hx]
      rfl
    simp only [lexFrom, hscan, ih h]

theorem lexemes_rendered (h : lexemes .equation cs = .ok ls) :
    lexemes .rendered cs = .ok (ls.map Lexeme.inRendered) :=
  collect_eq_ok.2 (lexFrom_rendered (collect_eq_ok.1 h))

end Token

/-- Every name among the tokens of a tree is one in the tree. -/
theorem Grammar.Derives.named (h : Derives d l ts e) (hx : .ident x ∈ ts) :
    x ∈ e.identifiers ∨ x ∈ e.functions := by
  have hnamed : e.Named (fun x => x ∈ e.identifiers ∨ x ∈ e.functions)
      fun f => f ∈ e.identifiers ∨ f ∈ e.functions := ⟨fun _ => .inl, fun _ => .inr⟩
  exact roles_iff_forall.1 (h.roles_iff.2 hnamed) x hx

/-- A text that is read as an equation is read alike as a rendered text, with the same spans,
unless it has one of the words that are names in equations only. -/
theorem rendered_reading_agrees_iff (h : Expr.parse .equation text = .ok e) :
    Expr.parse .rendered text = .ok e ↔
      ∀ x ∈ ["true", "false"], x ∉ e.identifiers ∧ x ∉ e.functions := by
  have hnames (x : String) :
      (x ∉ e.identifiers ∧ x ∉ e.functions) ↔ ¬(x ∈ e.identifiers ∨ x ∈ e.functions) :=
    not_or.symm
  simp only [hnames]
  constructor
  · intro hrendered x hx hmem
    have hname := (Expr.legible_of_parse hrendered).named hmem
    have hall : ∀ x ∈ ["true", "false"], Token.ofWord .rendered x ≠ .ident x := by decide
    exact hall x hx hname.1
  · -- The parser is the same for both dialects, so it is enough that the tokens are.
    intro hwords
    obtain ⟨ls, hls, hwhole⟩ := bind_eq_ok.1 h
    have hscanned : ∀ l ∈ ls, Token.Scanned .equation l.token :=
      fun l hl => Token.lexemes_scanned hls hl
    have hder := wholeExpression_sound (fun l hl => (hscanned l hl).inDialect) hwhole
    have hsame : ∀ l ∈ ls, l.inRendered = l := by
      intro l hl
      have htoken : l.token.inRendered = l.token := by
        cases ht : l.token with
        | ident x =>
          have hmem : x ∈ e.identifiers ∨ x ∈ e.functions :=
            Expr.named_eraseSpans.1 (hder.named (ht ▸ List.mem_map_of_mem hl))
          have hname : Token.ofWord .equation x = .ident x := by
            have hx := hscanned l hl
            rw [ht] at hx
            exact hx.isName.1
          rw [Token.inRendered, Token.ofWord_rendered_of_ne fun hx => hwords x hx hmem, hname]
        | _ => rfl
      rw [Lexeme.inRendered, htoken]
    rw [Expr.parse, Token.lexemes_rendered hls, List.map_congr_left hsame, List.map_id']
    exact hwhole

/-- The word is a name in an equation, and a truth value in what it is rendered to. -/
theorem rendered_reading_of_word :
    Expr.parse .equation "true or x" =
        .ok (.logical .or [.var "true" (.ofOffsets 0 4), .var "x" (.ofOffsets 8 9)]
          (.ofOffsets 0 9)) ∧
      Expr.parse .rendered "true or x" ≠
        .ok (.logical .or [.var "true" (.ofOffsets 0 4), .var "x" (.ofOffsets 8 9)]
          (.ofOffsets 0 9)) := by
  have h : Expr.parse .equation "true or x" =
      .ok (.logical .or [.var "true" (.ofOffsets 0 4), .var "x" (.ofOffsets 8 9)]
        (.ofOffsets 0 9)) := by
    rfl
  refine ⟨h, fun hrendered => ?_⟩
  have hnames := (rendered_reading_agrees_iff h).1 hrendered "true" List.mem_cons_self
  exact hnames.1 (by decide)

end Formulae
