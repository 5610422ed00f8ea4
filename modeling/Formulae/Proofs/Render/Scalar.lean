import Formulae.Proofs.Analysis.Constant
import Formulae.Proofs.Render.Agreement

namespace Formulae
open Grammar Outcome
open Token (IsName Spells Digits Mantissa Power symbols joining ofWord ofWord_rendered_of_ne
  numeral_of_read? spells_number spells_word)
set_option autoImplicit true

/-- The signs that make another operator, or one that C++ does not have, when doubled. -/
def doubling : List Char :=
  ['+', '-', '*']

/-- No sign stands beside itself, and there is no sign for a remainder. -/
structure Apart (cs : List Char) : Prop where
  chain : cs.IsChain fun a b => a = b → a ∉ doubling
  percent : '%' ∉ cs

instance : DecidablePred Apart := fun cs =>
  decidable_of_iff (cs.IsChain (fun a b => a = b → a ∉ doubling) ∧ '%' ∉ cs)
    ⟨fun h => ⟨h.1, h.2⟩, fun h => ⟨h.1, h.2⟩⟩

theorem Apart.append (hx : Apart xs) (hy : Apart ys) (h : ∀ c ∈ ys.head?, c ∉ doubling) :
    Apart (xs ++ ys) := by
  constructor
  · refine List.isChain_append.2 ⟨hx.chain, hy.chain, ?_⟩
    rintro a _ b hb rfl
    exact h a hb
  · rw [List.mem_append, not_or]
    exact ⟨hx.percent, hy.percent⟩

theorem Apart.cons (h : Apart cs) (hc : c ≠ '%') (hhead : ∀ x ∈ cs.head?, c = x → c ∉ doubling) :
    Apart (c :: cs) := by
  constructor
  · exact List.isChain_cons.2 ⟨hhead, h.chain⟩
  · rw [List.mem_cons, not_or]
    exact ⟨Ne.symm hc, h.percent⟩

theorem Apart.cons_of_not_mark (h : Apart cs) (hc : c ∉ '%' :: doubling) : Apart (c :: cs) := by
  rw [List.mem_cons, not_or] at hc
  exact h.cons hc.1 fun _ _ _ => hc.2

theorem Apart.append_cons (hx : Apart xs) (hc : c ∉ doubling) (hy : Apart (c :: ys)) :
    Apart (xs ++ c :: ys) := by
  apply hx.append hy
  rintro _ ⟨⟩
  exact hc

theorem apart_of_forall (h : ∀ c ∈ cs, c ∉ '%' :: doubling) : Apart cs := by
  induction cs with
  | nil => decide
  | cons c cs ih =>
    rw [List.forall_mem_cons] at h
    exact (ih h.2).cons_of_not_mark h.1

theorem Apart.not_doubled (h : Apart cs) (hc : c ∈ doubling) : ¬[c, c] <:+: cs := by
  intro hmem
  have hpair := List.IsChain.infix h.chain hmem
  exact List.isChain_pair.1 hpair rfl hc

theorem not_mark_of_isDigit (h : c.isDigit = true) : c ∉ '%' :: doubling := by
  have hmarks : ∀ c ∈ '%' :: doubling, c.isDigit = false := by decide
  intro hc
  rw [hmarks c hc] at h
  cases h

theorem not_mark_of_continue (h : Text.isIdentContinue c = true) : c ∉ '%' :: doubling := by
  have hmarks : ∀ c ∈ '%' :: doubling, Text.isIdentContinue c = false := by decide
  intro hc
  rw [hmarks c hc] at h
  cases h

theorem Token.Digits.apart (h : Digits ds) : Apart ds :=
  apart_of_forall fun c hc => not_mark_of_isDigit (h c hc)

theorem Token.Mantissa.apart (h : Mantissa m) : Apart m := by
  cases h with
  | whole hds => exact hds.apart
  | point hds hes =>
    exact hds.apart.append_cons (by decide) (hes.apart.cons_of_not_mark (by decide))

/-- The sign of an exponent stands between a letter and a digit. -/
theorem Token.Power.apart (h : Power p) : Apart p := by
  cases h with
  | none => decide
  | @some c sign ds hc hsign hds =>
    have hsigned : Apart (sign ++ ds) := by
      apply Apart.append _ hds.apart
      · intro d hd
        have hdigit := hds d (List.mem_of_mem_head? hd)
        exact List.not_mem_of_not_mem_cons (not_mark_of_isDigit hdigit)
      · rcases hsign with rfl | rfl | rfl <;> decide
    rcases hc with rfl | rfl <;> exact hsigned.cons_of_not_mark (by decide)

theorem apart_numeral (h : Decimal.read? cs = some n) : Apart cs := by
  obtain ⟨m, p, rfl, hm, hp⟩ := numeral_of_read? h
  apply hm.apart.append hp.apart
  cases hp with
  | none => simp
  | some hc =>
    intro c hc'
    cases hc'
    rcases hc with rfl | rfl <;> decide

/-- The first literal is written in C++ for the second one: it is one of a double, and both are read
as the same value. -/
structure Backend.DoubleFor (s s₀ : String) (x : Float) : Prop where
  text : s = cpp.number s₀
  marked : ∃ c ∈ s.toList, c ∈ ['.', 'e', 'E']
  value : ∃ n, Decimal.read? s.toList = some n ∧ n.toFloat = x
  literal : ∃ n, Decimal.read? s₀.toList = some n ∧ n.toFloat = x

/-- A numeral with characters other than digits has a point or a power. -/
theorem exists_mark_of_read? (h : Decimal.read? cs = some n) (hcs : cs.all Char.isDigit = false) :
    ∃ c ∈ cs, c ∈ ['.', 'e', 'E'] := by
  obtain ⟨m, p, rfl, hm, hp⟩ := numeral_of_read? h
  cases hp with
  | some hc =>
    refine ⟨_, List.mem_append_right _ (List.mem_append_left _ List.mem_cons_self), ?_⟩
    rcases hc with rfl | rfl <;> decide
  | none =>
    cases hm with
    | point => exact ⟨'.', by simp, by decide⟩
    | whole hds =>
      rw [List.append_nil, List.all_eq_true.2 hds] at hcs
      cases hcs

theorem doubleFor_number (h : Decimal.read? s.toList = some n) :
    Backend.DoubleFor (Backend.cpp.number s) s n.toFloat := by
  have hcases : Backend.cpp.number s = if s.toList.all Char.isDigit then s ++ ".0" else s := rfl
  by_cases hdigits : s.toList.all Char.isDigit = true
  · rw [if_pos hdigits] at hcases
    obtain ⟨n', hread, hvalue⟩ := Decimal.read?_append_point_zero hdigits h
    refine ⟨rfl, ⟨'.', ?_, by decide⟩, ⟨n', ?_, hvalue⟩, n, h, rfl⟩
    · simp [hcases]
    · simpa [hcases] using hread
  · rw [if_neg hdigits] at hcases
    rw [hcases]
    exact ⟨hcases.symm, exists_mark_of_read? h (by simpa using hdigits), ⟨n, h, rfl⟩, n, h, rfl⟩

/-- A token that the C++ text of the expression may have. -/
structure ScalarToken (e : Expr) (t : Token) : Prop where
  operator : t ∉ [.op .pow, .op .mod, .notWord, .connective .and, .connective .or]
  literal : t = .number s →
    ∃ s₀ x sp, e.Contains (· = .number s₀ x sp) ∧ Backend.DoubleFor s s₀ x

/-- A C++ text for the expression or a part of it. -/
structure ScalarText (e : Expr) (s : String) : Prop where
  apart : Apart s.toList
  spells : ∃ ts, Spells .rendered s.toList ts ∧ ∀ t ∈ ts, ScalarToken e t

theorem ScalarText.of_toList (hs : s.toList = cs) (hapart : Apart cs)
    (hspells : Spells .rendered cs ts) (hts : ∀ t ∈ ts, ScalarToken e t) : ScalarText e s := by
  subst hs
  exact ⟨hapart, ts, hspells, hts⟩

theorem ScalarToken.of_operand (h : ScalarToken e' t) (he : e' ∈ e.operands) : ScalarToken e t where
  operator := h.operator
  literal ht := by
    obtain ⟨s₀, x, sp, hmem, hdouble⟩ := h.literal ht
    exact ⟨s₀, x, sp, .operand he hmem, hdouble⟩

theorem ScalarText.of_operand (h : ScalarText e' s) (he : e' ∈ e.operands) : ScalarText e s := by
  obtain ⟨hapart, ts, hspells, hts⟩ := h
  exact ⟨hapart, ts, hspells, fun t ht => (hts t ht).of_operand he⟩

theorem scalarToken_symbol (ht : t ∈ symbols .rendered) (hop : t ∉ [.op .pow, .op .mod]) :
    ScalarToken e t where
  operator := by
    have hall : ∀ t ∈ symbols .rendered, t ∉ [.op .pow, .op .mod] →
        t ∉ [.op .pow, .op .mod, .notWord, .connective .and, .connective .or] := by
      decide
    exact hall t ht hop
  literal hnumber := by
    subst hnumber
    simp [symbols] at ht

/-- Words for the truth values are names in equations, and not in C++ texts. -/
theorem scalarToken_name (h : IsName d x) : ScalarToken e (ofWord .rendered x) := by
  have hword : ofWord .rendered x = .ident x ∨ ∃ b, ofWord .rendered x = .truth b := by
    cases d with
    | rendered => exact .inl h.1
    | equation =>
      by_cases hx : x ∈ ["true", "false"]
      · simp only [List.mem_cons, List.not_mem_nil, or_false] at hx
        rcases hx with rfl | rfl
        · exact .inr ⟨true, by decide⟩
        · exact .inr ⟨false, by decide⟩
      · exact .inl ((ofWord_rendered_of_ne hx).trans h.1)
  rcases hword with hword | ⟨b, hword⟩
  · rw [hword]
    exact ⟨by simp, nofun⟩
  · rw [hword]
    exact ⟨by simp, nofun⟩

theorem Apart.parens (h : Apart cs) : Apart ('(' :: cs ++ [')']) := by
  have hright : Apart (cs ++ [')']) := h.append_cons (by decide) (by decide)
  exact hright.cons_of_not_mark (by decide)

theorem scalarTokens_parens (h : ∀ t ∈ ts, ScalarToken e t) :
    ∀ t ∈ .leftParen :: ts ++ [.rightParen], ScalarToken e t := by
  have hleft : ScalarToken e .leftParen := scalarToken_symbol (by decide) (by decide)
  have hright : ScalarToken e .rightParen := scalarToken_symbol (by decide) (by decide)
  exact List.forall_mem_append.2
    ⟨List.forall_mem_cons.2 ⟨hleft, h⟩, List.forall_mem_singleton.2 hright⟩

theorem ScalarText.parens (h : ScalarText e s) : ScalarText e ("(" ++ s ++ ")") := by
  obtain ⟨hapart, ts, hspells, hts⟩ := h
  exact .of_toList (by simp) hapart.parens hspells.parens (scalarTokens_parens hts)

theorem ScalarText.parenthesize (h : ScalarText e s) (least : Nat) (e' : Expr) :
    ScalarText e (parenthesize least e' s) := by
  unfold Formulae.parenthesize
  split
  · exact h.parens
  · exact h

/-- The operators that stand between operands in C++ texts. -/
def betweenTokens : List Token :=
  [.op .add, .op .sub, .op .mul, .op .div, .cmp .lt, .cmp .le, .cmp .gt, .cmp .ge, .cmp .eq,
    .cmp .ne, .doubled .and, .doubled .or]

theorem ScalarText.between (hl : ScalarText e s) (ht : t ∈ betweenTokens) (hw : t.spelling = w)
    (hr : ScalarText e s') : ScalarText e (s ++ " " ++ w ++ " " ++ s') := by
  subst hw
  obtain ⟨hapart, ts, hspells, hts⟩ := hl
  obtain ⟨hapart', us, hspells', hus⟩ := hr
  have hsymbol : ∀ t ∈ betweenTokens, t ∈ symbols .rendered ∧ t ∉ [.op .pow, .op .mod] ∧
      Apart (' ' :: t.spelling.toList) := by
    decide +kernel
  obtain ⟨hmem, hop, hspelling⟩ := hsymbol t ht
  have hleft := hapart.append_cons (by decide) hspelling
  have hright := hapart'.cons_of_not_mark (c := ' ') (by decide)
  have htoken : ScalarToken e t := scalarToken_symbol hmem hop
  exact .of_toList (by simp) (hleft.append_cons (by decide) hright)
    (hspells.between (.inl hmem) hspells')
    (List.forall_mem_append.2 ⟨hts, List.forall_mem_cons.2 ⟨htoken, hus⟩⟩)

theorem ScalarText.comma (hl : ScalarText e s) (hr : ScalarText e s') :
    ScalarText e (s ++ ", " ++ s') := by
  obtain ⟨hapart, ts, hspells, hts⟩ := hl
  obtain ⟨hapart', us, hspells', hus⟩ := hr
  have hblank := hapart'.cons_of_not_mark (c := ' ') (by decide)
  have hcomma := hblank.cons_of_not_mark (c := ',') (by decide)
  have htoken : ScalarToken e .comma := scalarToken_symbol (by decide) (by decide)
  exact .of_toList (by simp) (hapart.append_cons (by decide) hcomma) (hspells.comma hspells')
    (List.forall_mem_append.2 ⟨hts, List.forall_mem_cons.2 ⟨htoken, hus⟩⟩)

/-- Texts one after the other, if two of them may stand beside the separator. -/
theorem ScalarText.intercalate {es : List α} {text : α → String} (hne : es ≠ [])
    (hsep : ∀ {s s'}, ScalarText e s → ScalarText e s' → ScalarText e (s ++ sep ++ s'))
    (h : ∀ x ∈ es, ScalarText e (text x)) : ScalarText e (sep.intercalate (es.map text)) := by
  induction es with
  | nil => exact absurd rfl hne
  | cons x es ih =>
    rw [List.forall_mem_cons] at h
    cases es with
    | nil => simpa using h.1
    | cons y es =>
      rw [List.map_cons, List.map_cons, String.intercalate_cons_cons]
      exact hsep h.1 (ih (List.cons_ne_nil _ _) h.2)

theorem scalarText_word (hx : x.toList = c :: cs) (hc : Text.isIdentStart c = true)
    (hcs : ∀ c ∈ cs, Text.isIdentContinue c = true) (ht : ScalarToken e (ofWord .rendered x)) :
    ScalarText e x := by
  have hcontinue : ∀ c' ∈ c :: cs, Text.isIdentContinue c' = true :=
    List.forall_mem_cons.2 ⟨Text.isIdentContinue_of_start hc, hcs⟩
  have hapart : Apart x.toList := by
    rw [hx]
    exact apart_of_forall fun c' hc' => not_mark_of_continue (hcontinue c' hc')
  exact ⟨hapart, _, spells_word hx hc hcs, List.forall_mem_singleton.2 ht⟩

theorem scalarText_name (h : IsName d x) : ScalarText e x := by
  have ht := scalarToken_name (e := e) h
  obtain ⟨-, c, cs, hx, hc, hcs⟩ := h
  exact scalarText_word hx hc hcs ht

theorem scalarText_truth (b : Bool) : ScalarText e (Backend.cpp.truth b) := by
  have hfalse : "false".toList = 'f' :: ['a', 'l', 's', 'e'] := by decide +kernel
  have htrue : "true".toList = 't' :: ['r', 'u', 'e'] := by decide +kernel
  cases b with
  | false =>
    apply scalarText_word hfalse (by decide) (by decide)
    exact ⟨by decide, nofun⟩
  | true =>
    apply scalarText_word htrue (by decide) (by decide)
    exact ⟨by decide, nofun⟩

theorem ScalarText.applied (hf : ScalarText e f) (h : ScalarText e s) :
    ScalarText e (f ++ "(" ++ s ++ ")") := by
  obtain ⟨hapart, ts, hspells, hts⟩ := hf
  obtain ⟨hapart', us, hspells', hus⟩ := h
  have hcall : Apart (f.toList ++ '(' :: s.toList ++ [')']) := by
    rw [List.append_assoc]
    exact hapart.append_cons (by decide) hapart'.parens
  have htokens : ∀ t ∈ ts ++ .leftParen :: us ++ [.rightParen], ScalarToken e t := by
    rw [List.append_assoc]
    exact List.forall_mem_append.2 ⟨hts, scalarTokens_parens hus⟩
  exact .of_toList (by simp) hcall (hspells.applied hspells') htokens

theorem ScalarText.appliedToNone (hf : ScalarText e f) : ScalarText e (f ++ "(" ++ "" ++ ")") := by
  obtain ⟨hapart, ts, hspells, hts⟩ := hf
  have htokens : ∀ t ∈ ts ++ [.leftParen, .rightParen], ScalarToken e t :=
    List.forall_mem_append.2 ⟨hts, scalarTokens_parens (List.forall_mem_nil _)⟩
  exact .of_toList (by simp) (hapart.append_cons (by decide) (by decide)) hspells.appliedToNone
    htokens

theorem ScalarText.call {es : List α} {text : α → String} (hf : ScalarText e f)
    (h : ∀ x ∈ es, ScalarText e (text x)) :
    ScalarText e (f ++ "(" ++ ", ".intercalate (es.map text) ++ ")") := by
  cases es with
  | nil => exact hf.appliedToNone
  | cons x es => exact hf.applied (intercalate (List.cons_ne_nil _ _) comma h)

/-- The text does not begin with a sign. -/
def Unsigned (s : String) : Prop :=
  ∀ c ∈ s.toList.head?, c ∉ doubling

theorem ScalarText.signed {t : Token} {c : Char} (h : ScalarText e s)
    (ht : (t, c) ∈ [(Token.op .add, '+'), (.op .sub, '-'), (.bang, '!')])
    (hs : Unsigned s) : ScalarText e (t.spelling ++ s) := by
  obtain ⟨hapart, ts, hspells, hts⟩ := h
  have hsign : ∀ p ∈ [(Token.op .add, '+'), (.op .sub, '-'), (.bang, '!')],
      p.1 ∈ symbols .rendered ∧ p.1 ∉ [.op .pow, .op .mod] ∧ p.1.spelling.toList = [p.2] ∧
        p.2 ∉ joining ∧ p.2 ≠ '%' := by
    decide +kernel
  obtain ⟨hmem, hop, hspelling, hjoin, hpercent⟩ := hsign _ ht
  have hsigned : Apart (c :: s.toList) := hapart.cons hpercent fun x hx hc => hc ▸ hs x hx
  exact .of_toList (by simp [hspelling]) hsigned (hspells.signed hmem hspelling hjoin)
    (List.forall_mem_cons.2 ⟨scalarToken_symbol hmem hop, hts⟩)

theorem scalarText_number (h : Decimal.read? s.toList = some n) :
    ScalarText (.number s n.toFloat sp) (Backend.cpp.number s) := by
  have hdouble := doubleFor_number h
  obtain ⟨n', hread, -⟩ := hdouble.value
  refine ⟨apart_numeral hread, _, spells_number hread, List.forall_mem_singleton.2 ⟨by simp, ?_⟩⟩
  rintro _ ⟨⟩
  exact ⟨s, n.toFloat, sp, .here rfl, hdouble⟩

theorem unsigned_parens (s : String) : Unsigned ("(" ++ s ++ ")") := by
  have hhead : ("(" ++ s ++ ")").toList = '(' :: (s.toList ++ [')']) := by simp
  rw [Unsigned, hhead]
  rintro _ ⟨⟩
  decide

theorem unsigned_numeral (h : Decimal.read? s.toList = some n) : Unsigned s := by
  obtain ⟨m, p, hs, hm, -⟩ := numeral_of_read? h
  obtain ⟨c, cs, rfl, hc, -⟩ := hm.startsNumber []
  rw [Unsigned, hs]
  rintro _ ⟨⟩
  rcases hc with rfl | hc
  · decide
  · exact List.not_mem_of_not_mem_cons (not_mark_of_isDigit hc)

theorem unsigned_name (h : IsName d x) (rest : String) : Unsigned (x ++ rest) := by
  obtain ⟨-, c, cs, hx, hc, -⟩ := h
  rw [Unsigned, String.toList_append, hx]
  rintro _ ⟨⟩
  exact List.not_mem_of_not_mem_cons (not_mark_of_continue (Text.isIdentContinue_of_start hc))

/-- What has a sign, or would be torn apart by one, stands in parentheses behind a sign. -/
theorem unsigned_signed (h : Legible (IsName d) e) :
    Unsigned (Backend.cpp.signed e (e.backendText .cpp)) := by
  cases h with
  | number hs =>
    obtain ⟨n, hread, -⟩ := (doubleFor_number hs).value
    exact unsigned_numeral hread
  | @bool b =>
    have htruth : ∀ b, ∀ c ∈ (Backend.cpp.truth b).toList.head?, c ∉ doubling := by decide +kernel
    exact htruth b
  | @var x _ hx =>
    have hname := unsigned_name hx ""
    rwa [String.append_empty] at hname
  | @call f args sp hf =>
    have hname := unsigned_name hf ("(" ++ ", ".intercalate (Expr.backendTexts .cpp args) ++ ")")
    rwa [← String.append_assoc, ← String.append_assoc] at hname
  | unary => exact unsigned_parens _
  | @binary l r op =>
    cases op with
    | add | sub | mul | div | mod => exact unsigned_parens _
    | pow =>
      -- a power is a call, which may stand behind a sign
      have hname := unsigned_name (isName_functionName .pow)
        ("(" ++ (l.backendText .cpp ++ ", " ++ r.backendText .cpp) ++ ")")
      rwa [← String.append_assoc, ← String.append_assoc, ← String.append_assoc,
        ← String.append_assoc] at hname
  | compare => exact unsigned_parens _
  | @logical _ op => cases op <;> exact unsigned_parens _

theorem scalarText_unary (h : Legible (IsName d) e)
    (he : ScalarText (.unary op e sp) (e.backendText .cpp)) :
    ScalarText (.unary op e sp) ((Expr.unary op e sp).backendText .cpp) := by
  have hsigned : ScalarText (.unary op e sp) (Backend.cpp.signed e (e.backendText .cpp)) := by
    cases e with
    | unary => exact he.parens
    | _ => exact he.parenthesize _ _
  cases op with
  | pos => exact hsigned.signed (t := .op .add) (c := '+') (by decide) (unsigned_signed h)
  | neg => exact hsigned.signed (t := .op .sub) (c := '-') (by decide) (unsigned_signed h)
  | not =>
    have hnot := he.parens.signed (t := .bang) (c := '!') (by decide) (unsigned_parens _)
    simp only [Expr.backendText, String.append_assoc]
    exact hnot

theorem scalarText_binary
    (hl : ScalarText (.binary op l r sp) (l.backendText .cpp))
    (hr : ScalarText (.binary op l r sp) (r.backendText .cpp)) :
    ScalarText (.binary op l r sp) ((Expr.binary op l r sp).backendText .cpp) := by
  rw [Expr.backendText]
  split
  · next hop =>
    have hmem : ∀ op, Backend.cpp.isBetween op = true → Token.op op ∈ betweenTokens := by
      intro op
      cases op <;> decide
    exact (hl.parenthesize _ _).between (hmem op hop) rfl (hr.parenthesize _ _)
  · have hcall := (scalarText_name (isName_functionName op)).applied (hl.comma hr)
    simpa [String.append_assoc] using hcall

theorem scalarText_chain {es : List α} {text : α → String} (hne : es ≠ [])
    (h : ∀ x ∈ es, ScalarText e (text x)) (op : BoolOp) :
    ScalarText e
      ((Backend.cpp.connective op).intercalate (es.map fun x => "(" ++ text x ++ ")")) := by
  have hmem : ∀ op, Token.doubled op ∈ betweenTokens := by
    intro op
    cases op <;> decide
  have hsep : Backend.cpp.connective op = " " ++ (Token.doubled op).spelling ++ " " := by
    cases op <;> decide +kernel
  apply ScalarText.intercalate hne _ fun x hx => (h x hx).parens
  intro s s' hs hs'
  have hbetween := hs.between (hmem op) rfl hs'
  rw [hsep]
  simpa [String.append_assoc] using hbetween

theorem scalarText_compare (hne : rest ≠ [])
    (he : ScalarText (.compare e rest sp) (e.backendText .cpp))
    (hrest : ∀ x ∈ rest, ScalarText (.compare e rest sp) (x.2.backendText .cpp)) :
    ScalarText (.compare e rest sp) ((Expr.compare e rest sp).backendText .cpp) := by
  have hmem : ∀ op, Token.cmp op ∈ betweenTokens := by
    intro op
    cases op <;> decide
  have hpair : ∀ x ∈ Expr.pairs e rest, ScalarText (.compare e rest sp)
      (x.1.operandText .cpp ++ " " ++ x.2.1.symbol ++ " " ++ x.2.2.operandText .cpp) := by
    intro x hx
    obtain ⟨hl, y, hy, hr⟩ := Expr.mem_pairs hx
    have hleft : ScalarText (.compare e rest sp) (x.1.backendText .cpp) := by
      rcases hl with hl | ⟨z, hz, hl⟩
      · rwa [hl]
      · rw [hl]
        exact hrest z hz
    have hright : ScalarText (.compare e rest sp) (x.2.2.backendText .cpp) := by
      rw [hr]
      exact hrest y hy
    exact (hleft.parenthesize _ _).between (hmem x.2.1) rfl (hright.parenthesize _ _)
  rw [Expr.backendText, ← Expr.operandText, Expr.pairTexts_eq]
  obtain ⟨x, more, rfl⟩ := List.exists_cons_of_ne_nil hne
  cases more with
  | nil => exact hpair _ List.mem_cons_self
  | cons y more =>
    -- the operand between two comparisons is written twice
    have hchain := scalarText_chain (by simp [Expr.pairs]) hpair .and
    simpa [Backend.conjunction, Expr.pairs, Function.comp_def] using hchain

theorem Legible.scalarText (h : Legible (IsName .equation) e) :
    ScalarText e (e.backendText .cpp) := by
  induction h with
  | number hs => exact scalarText_number hs
  | @bool b => exact scalarText_truth b
  | var hx => exact scalarText_name hx
  | @call f args sp hf _ ih =>
    rw [Expr.backendText, Expr.backendTexts_eq]
    exact (scalarText_name hf).call fun e he => (ih e he).of_operand he
  | @unary e op sp h ih => exact scalarText_unary h (ih.of_operand List.mem_cons_self)
  | binary _ _ ihl ihr =>
    exact scalarText_binary (ihl.of_operand (by simp [Expr.operands]))
      (ihr.of_operand (by simp [Expr.operands]))
  | compare _ hne _ ihe ihr =>
    exact scalarText_compare hne (ihe.of_operand List.mem_cons_self) fun x hx =>
      (ihr x hx).of_operand (List.mem_cons_of_mem _ (List.mem_map_of_mem hx))
  | @logical es op sp hlen _ ih =>
    have hoperand : ∀ e' ∈ es, ScalarText (.logical op es sp) (e'.backendText .cpp) :=
      fun e' he => (ih e' he).of_operand he
    rw [Expr.backendText, Expr.backendTexts_eq, List.map_map]
    exact scalarText_chain (List.ne_nil_of_length_pos (by omega)) hoperand op

/-- In the C++ text of an expression no two signs run together, there is no operator or word that it
may not have, and each literal is one of a double with the value of the literal in the expression
that it is written for. -/
theorem cpp_text_is_scalar {source : String} (h : Expr.parse .equation source = .ok e) :
    (∀ w ∈ ["--", "++", "**", "%"], ¬w.toList <:+: (e.backendText .cpp).toList) ∧
      ∃ ls, Token.lexemes .rendered (e.backendText .cpp).toList = .ok ls ∧ ∀ l ∈ ls,
        l.token ∉ [.op .pow, .op .mod, .notWord, .connective .and, .connective .or] ∧
          ∀ s, l.token = .number s →
            ∃ s₀ x sp, e.Contains (· = .number s₀ x sp) ∧ Backend.DoubleFor s s₀ x := by
  obtain ⟨hapart, ts, hspells, hts⟩ := (Expr.legible_of_parse h).scalarText
  obtain ⟨ls, hls, rfl⟩ := hspells.lexes.lexemes
  rw [List.forall_mem_map] at hts
  refine ⟨?_, ls, hls, fun l hl => ⟨(hts l hl).operator, fun s hs => (hts l hl).literal hs⟩⟩
  have hdoubled (c : Char) (hc : c ∈ doubling) := hapart.not_doubled hc
  simp only [List.forall_mem_cons, List.not_mem_nil, false_imp_iff, implies_true, and_true]
  refine ⟨hdoubled '-' (by decide), hdoubled '+' (by decide), hdoubled '*' (by decide), ?_⟩
  exact fun hmem => hapart.percent (hmem.subset (by decide))

/-- A sign of a sign is in parentheses, and what is equal in a chain has one literal twice. -/
theorem cpp_text_is_scalar_signs :
    ∃ e, Expr.parse .equation "--a - -1**2 % .5 <= 5 < 1e5 or not b" = .ok e ∧
      e.backendText .cpp =
        "((-(-a) - fmod(-pow(1.0, 2.0), .5) <= 5.0) && (5.0 < 1e5)) || (!(b))" ∧
      ¬"--".toList <:+: (e.backendText .cpp).toList ∧
      ∃ ls, Token.lexemes .rendered (e.backendText .cpp).toList = .ok ls ∧ ∀ l ∈ ls,
        l.token ∉ [.op .pow, .op .mod, .notWord, .connective .and, .connective .or] ∧
          ∀ s, l.token = .number s →
            ∃ s₀ x sp, e.Contains (· = .number s₀ x sp) ∧ Backend.DoubleFor s s₀ x := by
  have hread : (Expr.parse .equation "--a - -1**2 % .5 <= 5 < 1e5 or not b").map
      (Expr.backendText .cpp) =
      .ok "((-(-a) - fmod(-pow(1.0, 2.0), .5) <= 5.0) && (5.0 < 1e5)) || (!(b))" := by
    decide +kernel
  obtain ⟨e, he, htext⟩ := map_eq_ok.1 hread
  obtain ⟨happart, htokens⟩ := cpp_text_is_scalar he
  exact ⟨e, he, htext, happart "--" (by simp), htokens⟩

end Formulae
