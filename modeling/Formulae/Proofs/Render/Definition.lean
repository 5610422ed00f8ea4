import Formulae.Proofs.Eval.Registered
import Formulae.Proofs.Render.Header

namespace Formulae
open Grammar Outcome Text Token
set_option autoImplicit true

/-- The line of a body as it is written after its indentation. -/
def Grammar.BodyLine.text : BodyLine → String
  | .statement s => s.text
  | .result (some e) => "return " ++ e.text
  | .result none => "return"

def indented (cs : List Char) : List Char := ' ' :: ' ' :: ' ' :: ' ' :: cs

namespace Definition

/-- The last line of the body; with neither a result nor a statement it is a bare `return`. -/
def lastLine (d : Definition) : Option (Option Expr) :=
  match d.result with
  | some e => some (some e)
  | none => if d.body.isEmpty then some none else none

def outline (d : Definition) : Outline :=
  ⟨d.name, d.params, linesOfBody d.body d.lastLine⟩

def bodyTexts (d : Definition) : List (List Char) :=
  d.outline.body.map fun b => indented b.text.toList

/-- What is left of the line of the result if there is none. -/
def blankTexts (d : Definition) : List (List Char) :=
  if d.lastLine.isNone then [[]] else []

def textLines (d : Definition) : List (List Char) :=
  d.headerText :: (d.bodyTexts ++ d.blankTexts)

theorem join_lastLine (d : Definition) : d.lastLine.join = d.result := by
  rw [lastLine]
  cases d.result with
  | some e => rfl
  | none => cases d.body <;> rfl

theorem outline_body_ne_nil (d : Definition) : d.outline.body ≠ [] := by
  rw [outline, linesOfBody, lastLine]
  cases d.result with
  | some e => simp
  | none => cases d.body <;> simp

theorem definition_outline (d : Definition) : d.outline.definition = .ok d := by
  have hsplit : splitBody d.outline.body = some (d.body, d.result) :=
    splitBody_eq_some.2 ⟨d.lastLine, d.join_lastLine, rfl⟩
  rw [Outline.definition, hsplit, if_neg (by simpa using d.outline_body_ne_nil)]
  rfl

/-- What the text ends with: the line of the result, or nothing after the last statement. -/
def lastText (d : Definition) : String :=
  match d.result with
  | some e => "    return " ++ e.text
  | none => if d.body.isEmpty then "    return" else ""

theorem bodyTexts_append_blankTexts (d : Definition) : d.bodyTexts ++ d.blankTexts =
    d.body.map (fun s => indented s.text.toList) ++ [d.lastText.toList] := by
  rw [bodyTexts, outline, linesOfBody, List.map_append, List.map_map, blankTexts, lastLine,
    lastText, List.append_assoc]
  apply congrArg
  cases d.result with
  | some e => simp [BodyLine.text, indented]
  | none => cases d.body <;> simp [BodyLine.text, indented]

theorem toList_text (d : Definition) : d.text.toList = unlines d.textLines := by
  have htext : d.text = "def " ++ d.name ++ "(" ++ ", ".intercalate d.params ++ "):\n" ++
      String.join (d.body.map fun s => "    " ++ s.text ++ "\n") ++ d.lastText := rfl
  rw [textLines, bodyTexts_append_blankTexts, ← List.cons_append, unlines_concat, htext]
  simp [headerText, signature, indented, List.flatMap_map]

end Definition

namespace Grammar

theorem toList_return : "return".toList = ['r', 'e', 't', 'u', 'r', 'n'] := by
  decide +kernel

theorem spells_return : Spells .equation "return".toList [.returnWord] :=
  spells_word toList_return (by decide) (by decide)

theorem spells_returned (h : Spells .equation cs ts) :
    Spells .equation ("return".toList ++ ' ' :: cs) (.returnWord :: ts) :=
  h.behind_word toList_return (by decide) (by decide)

theorem lexes_indented (h : Lexes d cs ts) : Lexes d (indented cs) ts :=
  h.blank.blank.blank.blank

theorem BodyLine.Legible.beginsName {b : BodyLine} (h : b.Legible) : BeginsName b.text.toList := by
  have hr : isIdentStart 'r' = true := by decide
  cases b with
  | statement s => exact Statement.Legible.beginsName h
  | result value =>
    cases value with
    | none => exact ⟨⟨_, _, toList_return, hr⟩, spells_return.oneLine⟩
    | some e =>
      obtain ⟨ts, -, hs⟩ := (h e rfl).written_text
      have hline := (spells_returned hs).oneLine
      refine ⟨⟨'r', "eturn ".toList ++ e.text.toList, ?_, hr⟩, ?_⟩
      · simp [BodyLine.text]
      · simpa [BodyLine.text] using hline

theorem BodyLine.Legible.bodyLine {b : BodyLine} (h : b.Legible) :
    (Grammar.bodyLine (indented b.text.toList)).map BodyLine.eraseSpans = .ok b.eraseSpans := by
  cases b with
  | statement s =>
    obtain ⟨ts, hd, hs⟩ := Statement.Legible.spells h
    obtain ⟨ls, hls, hts⟩ := (lexes_indented hs.lexes).lexemes
    obtain ⟨s', hs', herase⟩ := map_eq_ok.1 (statement_accepts hd hts (stopOf ls))
    obtain ⟨⟨start, stop, tok⟩, ls', rfl, rfl, -⟩ := List.map_eq_cons_iff.1 hts
    simp only [Grammar.bodyLine, BodyLine.text, hls, ok_bind, hs']
    simp [BodyLine.eraseSpans, herase]
  | result value =>
    cases value with
    | none =>
      obtain ⟨ls, hls, hts⟩ := (lexes_indented spells_return.lexes).lexemes
      obtain ⟨⟨start, stop, tok⟩, rfl, rfl⟩ := List.map_eq_singleton_iff.1 hts
      simp only [Grammar.bodyLine, BodyLine.text, hls, ok_bind]
      rfl
    | some e =>
      obtain ⟨ts, hd, hs⟩ := (h e rfl).written_text
      obtain ⟨ls, hls, hts⟩ := (lexes_indented (spells_returned hs).lexes).lexemes
      obtain ⟨⟨start, stop, tok⟩, us, rfl, rfl, rfl⟩ := List.map_eq_cons_iff.1 hts
      have hwhole : Derives .equation .disjunction (us.map (·.token)) e.eraseSpans :=
        hd.loosen (Nat.zero_le _)
      obtain ⟨e', he', herase⟩ := wholeExpression_accepts hwhole
        (stopOf (⟨start, stop, .returnWord⟩ :: us))
      have hline : indented (BodyLine.result (some e)).text.toList =
          indented ("return".toList ++ ' ' :: e.text.toList) := by
        simp [BodyLine.text]
      obtain ⟨l, ls, rfl, -⟩ := hwhole.exists_cons
      simp only [Grammar.bodyLine, hline, hls, ok_bind, he']
      simp [BodyLine.eraseSpans, herase]

theorem continuesBody_indented (cs : List Char) : continuesBody (indented cs) = true := by
  simp [continuesBody, indentation, indented, indents]

theorem startsDefinition_indented (cs : List Char) : startsDefinition (indented cs) = false :=
  rfl

theorem isBlank_indented (h : BeginsName cs) : isBlank (indented cs) = false := by
  have hblank : isWhiteSpace ' ' = true := by decide
  have htrim : trim (indented cs) = trim cs := by simp [trim, indented, hblank]
  rw [isBlank, htrim]
  exact h.not_blank

theorem oneLine_indented (h : OneLine cs) : OneLine (indented cs) := by
  have hblanks : OneLine [' ', ' ', ' ', ' '] := by decide
  exact hblanks.append h

theorem bodyLines_texts {bs : List BodyLine} (h : ∀ b ∈ bs, b.Legible) (n : Nat) :
    (bodyLines n (bs.map fun b => indented b.text.toList)).map (·.map BodyLine.eraseSpans) =
      .ok (bs.map BodyLine.eraseSpans) := by
  induction bs generalizing n with
  | nil => rfl
  | cons b bs ih =>
    rw [List.forall_mem_cons] at h
    obtain ⟨b', hb', hfirst⟩ := map_eq_ok.1 h.1.bodyLine
    obtain ⟨more, hmore, hlines⟩ := map_eq_ok.1 (ih h.2 (n + 1))
    have hblank := isBlank_indented h.1.beginsName
    simp only [List.map_cons, bodyLines, hblank, hb', onLine, hmore]
    simp [hfirst, hlines]

theorem outlines_skip {ls rest : List (List Char)} (h : ∀ line ∈ ls, startsDefinition line = false)
    (n : Nat) : outlines n (ls ++ rest) = outlines (n + ls.length) rest := by
  induction ls generalizing n with
  | nil => rfl
  | cons line ls ih =>
    rw [List.forall_mem_cons] at h
    rw [List.cons_append, outlines, if_neg (by simp [h.1]), ih h.2, List.length_cons,
      Nat.add_assoc n, Nat.add_comm 1]

end Grammar

namespace Definition

theorem Legible.outline {d : Definition} (h : d.Legible) : ∀ b ∈ d.outline.body, b.Legible := by
  intro b hb
  rcases List.mem_append.1 hb with hb | hb
  · obtain ⟨s, hs, rfl⟩ := List.mem_map.1 hb
    exact h.body s hs
  · obtain ⟨value, hvalue, rfl⟩ := Option.map_eq_some_iff.1 (Option.mem_toList.1 hb)
    intro e he
    apply h.result
    rw [← d.join_lastLine, hvalue]
    exact he

theorem eq_nil_of_mem_blankTexts {d : Definition} (h : line ∈ d.blankTexts) : line = [] := by
  rw [blankTexts] at h
  split at h
  · exact List.mem_singleton.1 h
  · cases h

theorem mem_below {d : Definition} (h : line ∈ d.bodyTexts ++ d.blankTexts) :
    (∃ b ∈ d.outline.body, line = indented b.text.toList) ∨ line = [] := by
  rcases List.mem_append.1 h with h | h
  · obtain ⟨b, hb, rfl⟩ := List.mem_map.1 h
    exact .inl ⟨b, hb, rfl⟩
  · exact .inr (eq_nil_of_mem_blankTexts h)

theorem continuesBody_of_mem_below {d : Definition} (h : line ∈ d.bodyTexts ++ d.blankTexts) :
    continuesBody line = true := by
  rcases mem_below h with ⟨b, -, rfl⟩ | rfl
  · exact continuesBody_indented _
  · decide

theorem startsDefinition_of_mem_below {d : Definition}
    (h : line ∈ d.bodyTexts ++ d.blankTexts) : startsDefinition line = false := by
  rcases mem_below h with ⟨b, -, rfl⟩ | rfl
  · exact startsDefinition_indented _
  · rfl

theorem head_textLines {ds : List Definition} (h : ∀ d ∈ ds, d.Legible)
    (hline : line ∈ (ds.flatMap textLines).head?) : BeginsName line := by
  cases ds with
  | nil => cases hline
  | cons d ds =>
    cases hline
    exact beginsName_header (h d List.mem_cons_self)

theorem outlines_textLines {ds : List Definition} (h : ∀ d ∈ ds, d.Legible) (n : Nat) :
    (outlines n (ds.flatMap textLines)).map (·.map Outline.eraseSpans) =
      .ok (ds.map fun d => d.outline.eraseSpans) := by
  induction ds generalizing n with
  | nil => rfl
  | cons d ds ih =>
    rw [List.forall_mem_cons] at h
    have hstop : ∀ line ∈ (ds.flatMap textLines).head?, continuesBody line = false := by
      intro line hline
      have hbegins := head_textLines h.2 hline
      simp [continuesBody, hbegins.not_blank, hbegins.indentation]
    obtain ⟨below, hbelow, hbody⟩ := map_eq_ok.1 (bodyLines_texts h.1.outline (n + 1))
    obtain ⟨more, hmore, hmap⟩ :=
      map_eq_ok.1 (ih h.2 (n + 1 + (d.bodyTexts ++ d.blankTexts).length))
    rw [List.flatMap_cons, textLines, List.cons_append, outlines,
      if_pos (startsDefinition_header d), firstLine_header h.1,
      takeWhile_append_stop (fun _ => continuesBody_of_mem_below) hstop,
      bodyLines_append_blanks (fun _ => eq_nil_of_mem_blankTexts),
      outlines_skip (fun _ => startsDefinition_of_mem_below), hmore]
    simp only [bodyTexts, hbelow]
    simp [onLine, Outline.eraseSpans, hbody, hmap, outline]

theorem toList_texts (ds : List Definition) :
    ("\n".intercalate (ds.map text)).toList = unlines (ds.flatMap textLines) := by
  have hne : ∀ d ∈ ds, d.textLines ≠ [] := fun d _ => by simp [textLines]
  rw [unlines_flatMap hne, String.toList_intercalate, List.map_map]
  exact congrArg _ (List.map_congr_left fun d _ => d.toList_text)

/-- A line is a header, or indented, or empty. -/
theorem mem_textLines {ds : List Definition} (h : ∀ d ∈ ds, d.Legible)
    (hline : line ∈ ds.flatMap textLines) :
    BeginsName line ∨ (∃ cs, BeginsName cs ∧ line = indented cs) ∨ line = [] := by
  obtain ⟨d, hd, hline⟩ := List.mem_flatMap.1 hline
  rcases List.mem_cons.1 hline with rfl | hline
  · exact .inl (beginsName_header (h d hd))
  · rcases mem_below hline with ⟨b, hb, rfl⟩ | rfl
    · exact .inr (.inl ⟨_, ((h d hd).outline b hb).beginsName, rfl⟩)
    · exact .inr (.inr rfl)

theorem outlinesOfText_texts (ds : List Definition) (h : ∀ d ∈ ds, d.Legible) :
    (outlinesOfText ("\n".intercalate (ds.map text))).map (·.map Outline.eraseSpans) =
      .ok (ds.map fun d => d.outline.eraseSpans) := by
  have hone : ∀ line ∈ ds.flatMap textLines, OneLine line := by
    intro line hline
    rcases mem_textLines h hline with hline | ⟨cs, hcs, rfl⟩ | rfl
    · exact hline.2
    · exact oneLine_indented hcs.2
    · nofun
  have hblank : ∀ line ∈ ds.flatMap textLines, isBlank line = true → line = [] := by
    intro line hline hblank
    rcases mem_textLines h hline with hline | ⟨cs, hcs, rfl⟩ | rfl
    · rw [hline.not_blank] at hblank
      cases hblank
    · rw [isBlank_indented hcs] at hblank
      cases hblank
    · rfl
  obtain ⟨blanks, hblanks, hlines⟩ :=
    lines_deindent_unlines hone hblank fun line hline => head_textLines h hline
  rw [outlinesOfText, toList_texts, ← outlines_append_blanks hblanks, ← hlines]
  exact outlines_textLines h 1

theorem definition_of_outline {o : Outline} {d : Definition}
    (h : o.eraseSpans = d.outline.eraseSpans) :
    o.definition.map eraseSpans = .ok d.eraseSpans := by
  rw [← o.definition_eraseSpans, h, d.outline.definition_eraseSpans, d.definition_outline]
  rfl

theorem definitions_of_outlines {os : List Outline} {ds : List Definition}
    (h : os.map Outline.eraseSpans = ds.map fun d => d.outline.eraseSpans) :
    ∃ ds', os.mapM (·.definition) = .ok ds' ∧ ds'.map eraseSpans = ds.map eraseSpans := by
  induction ds generalizing os with
  | nil =>
    obtain rfl := List.map_eq_nil_iff.1 h
    exact ⟨[], rfl, rfl⟩
  | cons d ds ih =>
    obtain ⟨o, os, rfl, ho, hos⟩ := List.map_eq_cons_iff.1 h
    obtain ⟨d', hd', hfirst⟩ := map_eq_ok.1 (definition_of_outline ho)
    obtain ⟨ds', hds', hmore⟩ := ih hos
    exact ⟨d' :: ds', by rw [List.mapM_cons, hd', hds']; rfl, by simp [hfirst, hmore]⟩

theorem Legible.parse_text {d : Definition} (h : d.Legible) :
    (Definition.parse d.text).map eraseSpans = .ok d.eraseSpans := by
  have hone : ∀ d' ∈ [d], d'.Legible := by simpa using h
  obtain ⟨os, hos, hmap⟩ := map_eq_ok.1 (outlinesOfText_texts [d] hone)
  obtain ⟨o, rfl, ho⟩ := List.map_eq_singleton_iff.1 hmap
  have htext : "\n".intercalate ([d].map text) = d.text := by simp
  rw [htext] at hos
  simp only [Definition.parse, hos, ok_bind]
  exact definition_of_outline ho

theorem parseAll_texts {ds : List Definition} (h : ∀ d ∈ ds, d.Legible) :
    ∃ ds', ds'.map eraseSpans = ds.map eraseSpans ∧
      Definition.parseAll ("\n".intercalate (ds.map text)) = .ok (.ofDefinitions ds') := by
  obtain ⟨os, hos, hmap⟩ := map_eq_ok.1 (outlinesOfText_texts ds h)
  obtain ⟨ds', hds', hsame⟩ := definitions_of_outlines hmap
  refine ⟨ds', hsame, ?_⟩
  simp only [Definition.parseAll, hos, ok_bind, hds']
  rfl

end Definition

/-- A definition that is read is read again from its text, but for the spans; and of accepted
definitions with different names that are written below one another, exactly these are found. -/
theorem definition_text_parses_back :
    (∀ source d, Definition.parse source = .ok d →
      (Definition.parse d.text).map Definition.eraseSpans = .ok d.eraseSpans) ∧
    ∀ ds : List Definition, (∀ d ∈ ds, ∃ source, Definition.parse source = .ok d) →
      (ds.map (·.name)).Nodup →
      ∃ known, Definition.parseAll ("\n".intercalate (ds.map Definition.text)) = .ok known ∧
        (∀ d ∈ ds, known[d.name]?.map Definition.eraseSpans = some d.eraseSpans) ∧
        ∀ f ∈ known, ∃ d ∈ ds, d.name = f := by
  refine ⟨fun source d h => (Definition.legible_of_parse h).parse_text, ?_⟩
  intro ds hread hnames
  have hlegible : ∀ d ∈ ds, d.Legible := by
    intro d hd
    obtain ⟨source, h⟩ := hread d hd
    exact Definition.legible_of_parse h
  obtain ⟨ds', hsame, hparse⟩ := Definition.parseAll_texts hlegible
  have hsame_names : ds'.map (·.name) = ds.map (·.name) := by
    have hmap := congrArg (List.map (·.name)) hsame
    simpa [Function.comp_def, Definition.eraseSpans] using hmap
  refine ⟨_, hparse, ?_, ?_⟩
  · intro d hd
    have hmem : d.eraseSpans ∈ ds'.map Definition.eraseSpans := hsame ▸ List.mem_map_of_mem hd
    obtain ⟨d', hd', herase⟩ := List.mem_map.1 hmem
    have hname : d'.name = d.name := congrArg (·.name) herase
    rw [← hname, Table.getElem?_ofDefinitions_of_mem (hsame_names ▸ hnames) hd']
    exact congrArg some herase
  · intro f hf
    obtain ⟨d', hd'⟩ := Table.mem_iff_getElem?.1 hf
    obtain ⟨hmem, rfl⟩ := Table.getElem?_ofDefinitions hd'
    have hname : d'.name ∈ ds.map (·.name) := hsame_names ▸ List.mem_map_of_mem hmem
    exact List.mem_map.1 hname

/-- A body that ends without a result, and one that has nothing else. -/
theorem definition_text_parses_back_several :
    ∃ f g, Definition.parse "def f(a, b,): x = (a)\n  x += b" = .ok f ∧
      Definition.parse "\tdef g(): return\n" = .ok g ∧
      f.text = "def f(a, b):\n    x = a\n    x += b\n" ∧ g.text = "def g():\n    return" ∧
      (Definition.parse f.text).map Definition.eraseSpans = .ok f.eraseSpans ∧
      ∃ known, Definition.parseAll ("\n".intercalate ([f, g].map Definition.text)) = .ok known ∧
        (∀ d ∈ [f, g], known[d.name]?.map Definition.eraseSpans = some d.eraseSpans) ∧
        ∀ x ∈ known, ∃ d ∈ [f, g], d.name = x := by
  have hf : (Definition.parse "def f(a, b,): x = (a)\n  x += b").map (fun d => (d.name, d.text)) =
      .ok ("f", "def f(a, b):\n    x = a\n    x += b\n") := by
    decide +kernel
  have hg : (Definition.parse "\tdef g(): return\n").map (fun d => (d.name, d.text)) =
      .ok ("g", "def g():\n    return") := by
    decide +kernel
  obtain ⟨f, hf, hftext⟩ := map_eq_ok.1 hf
  obtain ⟨g, hg, hgtext⟩ := map_eq_ok.1 hg
  obtain ⟨hfname, hftext⟩ := Prod.mk.inj hftext
  obtain ⟨hgname, hgtext⟩ := Prod.mk.inj hgtext
  have hread : ∀ d ∈ [f, g], ∃ source, Definition.parse source = .ok d := by
    simpa using ⟨⟨_, hf⟩, _, hg⟩
  have hnames : ([f, g].map (·.name)).Nodup := by
    rw [List.map_cons, List.map_singleton, hfname, hgname]
    decide
  exact ⟨f, g, hf, hg, hftext, hgtext, definition_text_parses_back.1 _ _ hf,
    definition_text_parses_back.2 [f, g] hread hnames⟩

end Formulae
