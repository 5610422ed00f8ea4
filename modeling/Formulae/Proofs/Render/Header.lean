import Formulae.Proofs.Render.Outline

namespace Formulae
open Grammar Outcome Text Token
set_option autoImplicit true

namespace Definition

/-- The name and the parameters in parentheses. -/
def signature (d : Definition) : String :=
  d.name ++ "(" ++ ", ".intercalate d.params ++ ")"

def headerText (d : Definition) : List Char :=
  ("def ".toList ++ d.signature.toList) ++ [':']

end Definition

namespace Grammar

/-- Names with a comma between each two. -/
def parameterTokens : List String → List Token
  | [] => []
  | [x] => [.ident x]
  | x :: y :: xs => .ident x :: .comma :: parameterTokens (y :: xs)

theorem spells_parameters (hne : xs ≠ []) (h : ∀ x ∈ xs, IsName .equation x) :
    Spells .equation (", ".intercalate xs).toList (parameterTokens xs) := by
  induction xs with
  | nil => exact absurd rfl hne
  | cons x xs ih =>
    rw [List.forall_mem_cons] at h
    cases xs with
    | nil => simpa [parameterTokens] using h.1.spells
    | cons y xs =>
      have hmore := h.1.spells.comma (ih (by simp) h.2)
      simpa [parameterTokens, String.intercalate_cons_cons] using hmore

theorem freshParameter_of_nodup (h : (before ++ x :: xs).Nodup) (f : String) (sp : Span) :
    freshParameter f before x sp = .ok () :=
  freshParameter_eq_ok.2 fun hx => (List.nodup_append.1 h).2.2 x hx x List.mem_cons_self rfl

theorem parameters_read (hls : ls.map (·.token) = parameterTokens xs) (hr : r.token = .rightParen)
    (hnodup : (before ++ xs).Nodup) :
    parameters stop f before (ls ++ r :: rest) = .ok (xs, r :: rest) := by
  fun_induction parameterTokens xs generalizing before ls with
  | case1 =>
    obtain rfl := List.map_eq_nil_iff.1 hls
    rw [List.nil_append, parameters]
    simp only [hr]
  | case2 x =>
    obtain ⟨l, rfl, hl⟩ := List.map_eq_singleton_iff.1 hls
    rw [List.singleton_append, parameters]
    simp only [hl, hr, freshParameter_of_nodup hnodup]
    rfl
  | case3 x y xs ih =>
    obtain ⟨l, ls', rfl, hl, hls'⟩ := List.map_eq_cons_iff.1 hls
    obtain ⟨m, ls, rfl, hm, hls⟩ := List.map_eq_cons_iff.1 hls'
    have hnodup' : ((before ++ [x]) ++ y :: xs).Nodup := by simpa using hnodup
    have hmore := ih hls hnodup'
    rw [List.cons_append, List.cons_append, parameters]
    simp only [hl, hm, freshParameter_of_nodup hnodup, hmore]
    rfl

theorem header_read (hls : ls.map (·.token) =
      .defWord :: .ident f :: .leftParen :: (parameterTokens xs ++ [.rightParen, .colon]))
    (hnodup : xs.Nodup) (stop : Nat) :
    ∃ l ∈ ls, l.token = .colon ∧ header stop ls = .ok ⟨f, xs, l.stop⟩ := by
  obtain ⟨⟨start₁, stop₁, t₁⟩, ls₁, rfl, rfl, hls₁⟩ := List.map_eq_cons_iff.1 hls
  obtain ⟨⟨start₂, stop₂, t₂⟩, ls₂, rfl, rfl, hls₂⟩ := List.map_eq_cons_iff.1 hls₁
  obtain ⟨⟨start₃, stop₃, t₃⟩, ls₃, rfl, rfl, hls₃⟩ := List.map_eq_cons_iff.1 hls₂
  obtain ⟨ps, rs, rfl, hps, hrs⟩ := List.map_eq_append_iff.1 hls₃
  obtain ⟨⟨start₄, stop₄, t₄⟩, rs', rfl, rfl, hrs'⟩ := List.map_eq_cons_iff.1 hrs
  obtain ⟨⟨start₅, stop₅, t₅⟩, rfl, rfl⟩ := List.map_eq_singleton_iff.1 hrs'
  refine ⟨⟨start₅, stop₅, .colon⟩, by simp, rfl, ?_⟩
  have hparams (r : Lexeme) (hr : r.token = .rightParen) (rest : List Lexeme) :
      parameters stop f [] (ps ++ r :: rest) = .ok (xs, r :: rest) :=
    parameters_read hps hr hnodup
  simp only [header, hparams ⟨start₄, stop₄, .rightParen⟩ rfl]
  rfl

theorem lexes_header {d : Definition} (h : d.Legible) : Lexes .equation d.headerText
    (.defWord :: .ident d.name :: .leftParen ::
      (parameterTokens d.params ++ [.rightParen, .colon])) := by
  have hdef : "def".toList = 'd' :: ['e', 'f'] := by decide +kernel
  have hcolon : Lexes .equation [':'] [.colon] :=
    (Lexes.nil _).mark (by decide) (by decide) (by rintro _ ⟨⟩)
  have hparams : Lexes .equation ('(' :: (", ".intercalate d.params).toList ++ ')' :: [':'])
      (.leftParen :: (parameterTokens d.params ++ [.rightParen, .colon])) := by
    by_cases hne : d.params = []
    · rw [hne]
      exact hcolon.rightParen.leftParen (by rintro _ ⟨⟩; decide)
    · exact Lexes.parens (spells_parameters hne h.params) hcolon
  have hname := h.name.spells.reads (delimited_leftParen _) hparams
  have hword := (spells_word hdef (by decide) (by decide)).reads (delimited_blank _) hname.blank
  have hdefWord : ofWord .equation "def" = .defWord := by decide
  rw [hdefWord] at hword
  simpa [Definition.headerText, Definition.signature] using hword

theorem mem_intercalate {sep : String} {xs : List String}
    (h : c ∈ (sep.intercalate xs).toList) : c ∈ sep.toList ∨ ∃ x ∈ xs, c ∈ x.toList := by
  cases xs with
  | nil => simp at h
  | cons x xs =>
    rw [toList_intercalate_cons, List.mem_append, List.mem_flatMap] at h
    rcases h with h | ⟨y, hy, h⟩
    · exact .inr ⟨x, List.mem_cons_self, h⟩
    · rcases List.mem_append.1 h with h | h
      · exact .inl h
      · exact .inr ⟨y, List.mem_cons_of_mem _ hy, h⟩

/-- Before the colon there are only names, parentheses, commas and blanks. -/
theorem mem_signature {d : Definition} (h : d.Legible) (hc : c ∈ d.signature.toList) :
    isIdentContinue c = true ∨ c ∈ ['(', ',', ' ', ')'] := by
  simp only [Definition.signature, String.toList_append, List.mem_append] at hc
  rcases hc with ((hc | hc) | hc) | hc
  · exact .inl (h.name.continues hc)
  · have hparen : c = '(' := by simpa using hc
    exact .inr (by simp [hparen])
  · rcases mem_intercalate hc with hc | ⟨x, hx, hc⟩
    · have hsep : c = ',' ∨ c = ' ' := by simpa using hc
      exact .inr (by rcases hsep with rfl | rfl <;> simp)
    · exact .inl ((h.params x hx).continues hc)
  · have hparen : c = ')' := by simpa using hc
    exact .inr (by simp [hparen])

theorem not_mem_signature {d : Definition} (h : d.Legible) (hc : c ∈ ['\n', '\r', ':']) :
    c ∉ d.signature.toList := by
  have hall : ∀ c ∈ ['\n', '\r', ':'],
      isIdentContinue c = false ∧ c ∉ ['(', ',', ' ', ')'] := by decide
  intro hmem
  rcases mem_signature h hmem with hcont | hother
  · rw [(hall c hc).1] at hcont
    cases hcont
  · exact (hall c hc).2 hother

theorem beginsName_header {d : Definition} (h : d.Legible) : BeginsName d.headerText := by
  have hsignature : OneLine d.signature.toList := by
    intro c hc
    constructor
    · rintro rfl
      exact not_mem_signature h (by decide) hc
    · rintro rfl
      exact not_mem_signature h (by decide) hc
  have hdef : OneLine "def ".toList := by decide +kernel
  have hcolon : OneLine [':'] := by decide
  exact ⟨⟨'d', _, rfl, by decide⟩, (hdef.append hsignature).append hcolon⟩

theorem startsDefinition_header (d : Definition) : startsDefinition d.headerText = true := by
  have hblank : isWhiteSpace ' ' = true := by decide
  simpa [Definition.headerText, startsDefinition] using hblank

/-- The only colon is the last character, so that nothing is left of the line behind it. -/
theorem firstLine_header {d : Definition} (h : d.Legible) :
    firstLine d.headerText = .ok ⟨d.name, d.params, []⟩ := by
  obtain ⟨ls, hls, hts⟩ := (lexes_header h).lexemes
  obtain ⟨l, hl, hcolon, hheader⟩ := header_read hts h.distinct (stopOf ls)
  have hmem : .ok l ∈ lex .equation d.headerText := by
    rw [collect_eq_ok.1 hls]
    exact List.mem_map_of_mem hl
  obtain ⟨xs, ys, happend, hstop⟩ := lexFrom_symbol hmem (by rw [hcolon]; decide)
  have hbefore : ':' ∉ "def ".toList ++ d.signature.toList := by
    rw [List.mem_append, not_or]
    exact ⟨by decide +kernel, not_mem_signature h (by decide)⟩
  have hspelling : Token.colon.spelling.toList = [':'] := by decide +kernel
  rw [hcolon, hspelling, Definition.headerText, List.append_assoc xs,
    List.singleton_append] at happend
  obtain ⟨rfl, rfl⟩ := append_singleton_inj hbefore happend
  have hend : l.stop = byteCount d.headerText := by
    rw [hstop, hcolon, Definition.headerText, byteCount_append _ [':'], Nat.zero_add]
    rfl
  have hrest := dropBytes_append d.headerText []
  rw [List.append_nil, ← hend] at hrest
  simp only [firstLine, hls, ok_bind, hheader, hrest]
  rfl

end Grammar
end Formulae
