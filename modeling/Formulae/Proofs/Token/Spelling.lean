import Formulae.Proofs.Text.Lines
import Formulae.Proofs.Token.Numeral

namespace Formulae.Token
open Text
set_option autoImplicit true

/-- The word is read as a name. -/
def IsName (d : Dialect) (x : String) : Prop :=
  ofWord d x = .ident x ∧
    ∃ c cs, x.toList = c :: cs ∧ isIdentStart c = true ∧
      ∀ c ∈ cs, isIdentContinue c = true

/-- Before a delimiter the text is read as the tokens; what comes before the text does not run into
it, and it is on a single line. -/
structure Spells (d : Dialect) (cs : List Char) (ts : List Token) : Prop where
  reads : ∀ {rest us}, Delimited rest → Lexes d rest us → Lexes d (cs ++ rest) (ts ++ us)
  head : ∃ c cs', cs = c :: cs' ∧ c ∉ joining
  oneLine : OneLine cs

theorem Spells.lexes (h : Spells d cs ts) : Lexes d cs ts := by
  have hnil : Delimited [] := fun c hc => by cases hc
  simpa using h.reads hnil (.nil d)

theorem Spells.head_append (h : Spells d cs ts) (rest : List Char) :
    ∀ c ∈ (cs ++ rest).head?, c ∉ joining := by
  obtain ⟨c, cs, rfl, hc⟩ := h.head
  rintro _ ⟨⟩
  exact hc

theorem not_joining_of_start (h : isIdentStart c = true) : c ∉ joining := by
  have hall : ∀ c ∈ joining, isIdentStart c = false := by decide
  intro hc
  rw [hall c hc] at h
  cases h

theorem oneLine_of_continue (h : isIdentContinue c = true) : c ≠ '\n' ∧ c ≠ '\r' := by
  have hall : ∀ c ∈ ['\n', '\r'], isIdentContinue c = false := by decide
  constructor <;> rintro rfl <;> rw [hall _ (by decide)] at h <;> cases h

theorem spells_word (hx : x.toList = c :: cs) (hc : isIdentStart c = true)
    (hcs : ∀ c ∈ cs, isIdentContinue c = true) : Spells d x.toList [ofWord d x] where
  reads hrest h := by
    have hx' : x = .ofList (c :: cs) := by rw [← hx, String.ofList_toList]
    rw [hx, List.singleton_append]
    exact hx' ▸ h.word hc hcs hrest
  head := ⟨c, cs, hx, not_joining_of_start hc⟩
  oneLine := by
    rw [hx]
    intro x hx
    rcases List.mem_cons.1 hx with rfl | hx
    · exact oneLine_of_continue (isIdentContinue_of_start hc)
    · exact oneLine_of_continue (hcs x hx)

theorem IsName.continues (h : IsName d x) (hc : c ∈ x.toList) : isIdentContinue c = true := by
  obtain ⟨-, c', cs, hx, hstart, hcont⟩ := h
  rw [hx] at hc
  rcases List.mem_cons.1 hc with rfl | hc
  · exact isIdentContinue_of_start hstart
  · exact hcont c hc

theorem IsName.spells (h : IsName d x) : Spells d x.toList [.ident x] := by
  obtain ⟨hx, c, cs, hcs, hc, hcont⟩ := h
  exact hx ▸ spells_word hcs hc hcont

theorem spells_number (h : Decimal.read? s.toList = some n) : Spells d s.toList [.number s] := by
  obtain ⟨m, p, hs, hm, hp⟩ := numeral_of_read? h
  have hall : ∀ c ∈ joining, c ≠ '.' ∧ c.isDigit = false := by decide
  have hline : ∀ c ∈ numeralChars, c ≠ '\n' ∧ c ≠ '\r' := by decide +kernel
  refine ⟨fun hrest hl => ?_, ?_, ?_⟩
  · have hs' : s = .ofList (m ++ p) := by rw [← hs, String.ofList_toList]
    rw [hs, List.singleton_append]
    exact hs' ▸ hl.number hm hp hrest
  · obtain ⟨c, cs, rfl, hc, -⟩ := hm.startsNumber []
    refine ⟨c, cs ++ p, hs, fun hmem => ?_⟩
    rcases hc with rfl | hc
    · exact absurd rfl (hall _ hmem).1
    · rw [(hall c hmem).2] at hc
      cases hc
  · rw [hs]
    exact fun c hc => hline c (mem_numeralChars hm hp hc)

/-- An operator that is written with a blank on either side of it. -/
def Spaced (d : Dialect) (t : Token) : Prop :=
  t ∈ symbols d ∨ ∃ op, t = .connective op

theorem Lexes.spaced (h : Lexes d cs ts) (ht : Spaced d t) :
    Lexes d (' ' :: t.spelling.toList ++ ' ' :: cs) (t :: ts) := by
  apply Lexes.blank
  rcases ht with ht | ⟨op, rfl⟩
  · apply h.blank.symbol ht
    apply parted_of_not_joining ht
    rintro _ ⟨⟩
    decide
  · have hword : ∃ c cs, (Token.connective op).spelling.toList = c :: cs ∧
        isIdentStart c = true ∧ (∀ c ∈ cs, isIdentContinue c = true) ∧
        ofWord d (.ofList (c :: cs)) = .connective op := by
      cases op
      · exact ⟨'a', ['n', 'd'], by decide +kernel, by decide, by decide, by cases d <;> decide⟩
      · exact ⟨'o', ['r'], by decide +kernel, by decide, by decide, by cases d <;> decide⟩
    obtain ⟨c, xs, hxs, hc, hcont, hop⟩ := hword
    rw [hxs, ← hop]
    apply h.blank.word hc hcont
    rintro _ ⟨⟩
    decide

theorem Spaced.oneLine (h : Spaced d t) : OneLine t.spelling.toList := by
  rcases h with h | ⟨op, rfl⟩
  · have hall : ∀ d, ∀ t ∈ symbols d, OneLine t.spelling.toList := by
      intro d
      cases d <;> decide +kernel
    exact hall d t h
  · cases op <;> decide +kernel

theorem delimited_cons {cs : List Char} (h : c ∈ delimiters) : Delimited (c :: cs) := by
  rintro _ ⟨⟩
  exact h

theorem delimited_blank (cs : List Char) : Delimited (' ' :: cs) :=
  delimited_cons (by decide)

theorem delimited_leftParen (cs : List Char) : Delimited ('(' :: cs) :=
  delimited_cons (by decide)

theorem delimited_rightParen (cs : List Char) : Delimited (')' :: cs) :=
  delimited_cons (by decide)

theorem Lexes.mark (h : Lexes d cs ts) (ht : t ∈ symbols d) (hs : t.spelling.toList = [c])
    (hcs : ∀ c ∈ cs.head?, c ∉ joining) : Lexes d (c :: cs) (t :: ts) := by
  have hread := h.symbol ht (parted_of_not_joining ht hcs)
  rwa [hs, List.singleton_append] at hread

theorem Spells.between (hl : Spells d cs ts) (ht : Spaced d t) (hr : Spells d ds us) :
    Spells d (cs ++ ' ' :: t.spelling.toList ++ ' ' :: ds) (ts ++ t :: us) where
  reads hrest h := by
    have hop := Lexes.spaced (hr.reads hrest h) ht
    simpa using hl.reads (delimited_blank _) hop
  head := by
    obtain ⟨c, cs, rfl, hc⟩ := hl.head
    exact ⟨c, _, rfl, hc⟩
  oneLine := by
    have hblank : OneLine [' '] := by decide
    have hop := (hblank.append ht.oneLine).append hblank
    simpa using hl.oneLine.append (hop.append hr.oneLine)

/-- An operator of a product or a power may be written without blanks. -/
theorem Spells.tight (hl : Spells d cs ts) (ht : t ∈ [Token.op .mul, .op .div, .op .pow])
    (hr : Spells d ds us) : Spells d (cs ++ t.spelling.toList ++ ds) (ts ++ t :: us) := by
  have hsymbols : ∀ t ∈ [Token.op .mul, .op .div, .op .pow], t ∈ symbols d := by
    cases d <;> decide
  have hmem := hsymbols t ht
  obtain ⟨c, cs', hspelling, hc, hline⟩ : ∃ c cs', t.spelling.toList = c :: cs' ∧
      c ∈ delimiters ∧ OneLine (c :: cs') := by
    simp only [List.mem_cons, List.not_mem_nil, or_false] at ht
    rcases ht with rfl | rfl | rfl
    · exact ⟨'*', [], by simp [spelling, BinaryOp.symbol], by decide, by decide⟩
    · exact ⟨'/', [], by simp [spelling, BinaryOp.symbol], by decide, by decide⟩
    · exact ⟨'*', ['*'], by simp [spelling, BinaryOp.symbol], by decide, by decide⟩
  refine ⟨fun {rest _} hrest h => ?_, ?_, ?_⟩
  · have hop := (hr.reads hrest h).symbol hmem (parted_of_not_joining hmem (hr.head_append _))
    rw [hspelling] at hop ⊢
    simpa using hl.reads (delimited_cons hc) hop
  · obtain ⟨c, cs, rfl, hc⟩ := hl.head
    exact ⟨c, _, rfl, hc⟩
  · rw [hspelling]
    exact (hl.oneLine.append hline).append hr.oneLine

theorem Spells.comma (hl : Spells d cs ts) (hr : Spells d ds us) :
    Spells d (cs ++ ',' :: ' ' :: ds) (ts ++ .comma :: us) where
  reads {rest us'} hrest h := by
    have hread : Lexes d (',' :: ' ' :: (ds ++ rest)) (.comma :: (us ++ us')) :=
      (hr.reads hrest h).blank.mark (by cases d <;> decide) (by decide)
        (by rintro _ ⟨⟩; decide)
    simpa using hl.reads (delimited_cons (by decide)) hread
  head := by
    obtain ⟨c, cs, rfl, hc⟩ := hl.head
    exact ⟨c, _, rfl, hc⟩
  oneLine := by
    have hsep : OneLine [',', ' '] := by decide
    simpa using hl.oneLine.append (hsep.append hr.oneLine)

theorem Lexes.leftParen (h : Lexes d cs ts) (hcs : ∀ c ∈ cs.head?, c ∉ joining) :
    Lexes d ('(' :: cs) (.leftParen :: ts) := by
  apply h.mark _ _ hcs
  · cases d <;> decide
  · rfl

theorem Lexes.rightParen (h : Lexes d cs ts) : Lexes d (')' :: cs) (.rightParen :: ts) := by
  have hmem : Token.rightParen ∈ symbols d := by cases d <;> decide
  have hsingle : ∀ d, ∀ u ∈ symbols d, u.spelling.toList.head? = some ')' →
      u.spelling.toList = [')'] := by
    intro d
    cases d <;> decide +kernel
  apply h.symbol hmem
  intro c _ u hu xs hspelling
  have hone := hsingle d u hu (by rw [hspelling]; rfl)
  rw [hone] at hspelling
  cases hspelling

theorem Lexes.parens (h : Spells d cs ts) (hl : Lexes d rest us) :
    Lexes d ('(' :: cs ++ ')' :: rest) (.leftParen :: ts ++ .rightParen :: us) := by
  have hread := h.reads (delimited_rightParen rest) hl.rightParen
  exact hread.leftParen (h.head_append _)

theorem oneLine_parens (h : Spells d cs ts) : OneLine ('(' :: cs ++ [')']) := by
  have hleft : OneLine ['('] := by decide
  have hright : OneLine [')'] := by decide
  exact (hleft.append h.oneLine).append hright

theorem Spells.parens (h : Spells d cs ts) :
    Spells d ('(' :: cs ++ [')']) (.leftParen :: ts ++ [.rightParen]) where
  reads _ hl := by simpa using Lexes.parens h hl
  head := ⟨'(', cs ++ [')'], rfl, by decide⟩
  oneLine := oneLine_parens h

theorem Spells.applied (hf : Spells d cs ts) (h : Spells d ds us) :
    Spells d (cs ++ '(' :: ds ++ [')']) (ts ++ .leftParen :: us ++ [.rightParen]) where
  reads _ hl := by
    have hparens := Lexes.parens h hl
    simpa using hf.reads (delimited_leftParen _) hparens
  head := by
    obtain ⟨c, cs, rfl, hc⟩ := hf.head
    exact ⟨c, _, rfl, hc⟩
  oneLine := by simpa using hf.oneLine.append (oneLine_parens h)

theorem Spells.appliedToNone (hf : Spells d cs ts) :
    Spells d (cs ++ ['(', ')']) (ts ++ [.leftParen, .rightParen]) where
  reads _ hl := by
    have hparens := hl.rightParen.leftParen (by rintro _ ⟨⟩; decide)
    simpa using hf.reads (delimited_leftParen _) hparens
  head := by
    obtain ⟨c, cs, rfl, hc⟩ := hf.head
    exact ⟨c, _, rfl, hc⟩
  oneLine := by
    have hparens : OneLine ['(', ')'] := by decide
    exact hf.oneLine.append hparens

theorem Spells.signed (h : Spells d cs ts) (ht : t ∈ symbols d) (hs : t.spelling.toList = [c])
    (hc : c ∉ joining) : Spells d (c :: cs) (t :: ts) where
  reads hrest hl := (h.reads hrest hl).mark ht hs (h.head_append _)
  head := ⟨c, cs, rfl, hc⟩
  oneLine := by
    have hsign := Spaced.oneLine (d := d) (.inl ht)
    rw [hs] at hsign
    exact hsign.append h.oneLine

theorem Spells.behind_word (h : Spells d ds ts) (hx : x.toList = c :: cs)
    (hc : isIdentStart c = true) (hcs : ∀ c ∈ cs, isIdentContinue c = true) :
    Spells d (x.toList ++ ' ' :: ds) (ofWord d x :: ts) where
  reads hrest hl := by
    have hword := (spells_word hx hc hcs).reads (delimited_blank _) (h.reads hrest hl).blank
    simpa using hword
  head := ⟨c, cs ++ ' ' :: ds, by rw [hx]; rfl, not_joining_of_start hc⟩
  oneLine := by
    have hblank : OneLine [' '] := by decide
    exact (spells_word (d := d) hx hc hcs).oneLine.append (hblank.append h.oneLine)

theorem Spells.negated (h : Spells d cs ts) :
    Spells d ('n' :: 'o' :: 't' :: ' ' :: cs) (.notWord :: ts) := by
  have hx : "not".toList = ['n', 'o', 't'] := by decide +kernel
  have hword : ofWord d "not" = .notWord := by cases d <;> decide
  have hspells := h.behind_word hx (by decide) (by decide)
  rwa [hx, hword] at hspells

end Formulae.Token
