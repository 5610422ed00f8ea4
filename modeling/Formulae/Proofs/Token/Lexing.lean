import Formulae.Proofs.Outcome
import Formulae.Proofs.Text.Characters
import Formulae.Token.Lexer
import Mathlib.Data.List.Find
import Mathlib.Tactic.SplitIfs

namespace Formulae.Token
open Outcome Text
set_option autoImplicit true

/-- The tokens that a text of the dialect may hold. -/
inductive Scanned (d : Dialect) : Token → Prop
  | symbol : t ∈ symbols d → Scanned d t
  | word : isIdentStart c = true → (∀ x ∈ cs, isIdentContinue x = true) →
      Scanned d (ofWord d (.ofList (c :: cs)))
  | number : startsNumber cs = true → Scanned d (.number (.ofList (literal cs)))
  | dot : Scanned d .dot

theorem mem_of_lookup {entries : List (String × Token)} (h : entries.lookup word = some t) :
    (word, t) ∈ entries := by
  obtain ⟨as, bs, rfl, -⟩ := List.lookup_eq_some_iff.1 h
  exact List.mem_append_right _ List.mem_cons_self

theorem ofWord_cases (d : Dialect) (word : String) :
    (word, ofWord d word) ∈ keywords ++ renderedKeywords ∨
      ofWord d word = .reserved word ∨ ofWord d word = .ident word := by
  unfold ofWord
  dsimp only
  split
  · next t ht =>
    cases d with
    | equation => exact .inl (List.mem_append_left _ (mem_of_lookup ht))
    | rendered => exact .inl (mem_of_lookup ht)
  · split
    · exact .inr (.inl rfl)
    · exact .inr (.inr rfl)

/-- Two words are names in equations only; all others are the same tokens in both dialects. -/
theorem ofWord_rendered_of_ne (h : word ∉ ["true", "false"]) :
    ofWord .rendered word = ofWord .equation word := by
  have hword : renderedKeywords.lookup word = none := by
    rw [List.lookup_eq_none_iff]
    intro p hp
    apply bne_iff_ne.2
    rintro rfl
    exact h (List.mem_map_of_mem (f := Prod.fst) hp)
  simp only [ofWord, List.lookup_append, hword, Option.or_none]

theorem collect_eq_ok {xs : List (Except Fault Lexeme)} :
    collect xs = .ok ls ↔ xs = ls.map .ok := by
  induction xs generalizing ls with
  | nil => cases ls <;> simp [collect]
  | cons x xs ih =>
    cases x with
    | error f => cases ls <;> simp [collect]
    | ok l =>
      cases ls with
      | nil => simp [collect, map_eq_ok]
      | cons m ms => simp [collect, map_eq_ok, ih, and_comm, and_assoc]

theorem symbol?_mem (h : symbol? d cs = some t) : t ∈ symbols d :=
  List.mem_of_find?_eq_some h

theorem scan_scanned (h : (scan d pos c cs).found = some (.ok l)) : Scanned d l.token := by
  unfold scan at h
  split at h
  · next t ht =>
    cases h
    exact .symbol (symbol?_mem ht)
  · dsimp only at h
    split_ifs at h with h₁ h₂ h₃ h₄ h₅ h₆ h₇ <;> cases h
    · exact .number h₃
    · exact .dot
    · exact .word h₅ fun x hx => List.all_eq_true.1 (List.all_takeWhile) x hx

theorem lexFrom_scanned (h : .ok l ∈ lexFrom d skip pos cs) : Scanned d l.token := by
  fun_induction lexFrom d skip pos cs with
  | case1 => cases h
  | case2 skip pos c cs ih => exact ih h
  | case3 pos c cs item rest x hx ih =>
    rcases List.mem_cons.1 h with rfl | h
    · exact scan_scanned hx
    · exact ih h
  | case4 pos c cs item rest hx ih => exact ih h

theorem lexemes_scanned (h : lexemes d cs = .ok ls) (hl : l ∈ ls) : Scanned d l.token := by
  have hm : .ok l ∈ lex d cs := by
    rw [collect_eq_ok.1 h]
    exact List.mem_map_of_mem hl
  exact lexFrom_scanned hm

theorem not_mem_symbols_ofWord (d d' : Dialect) (word : String) : ofWord d' word ∉ symbols d := by
  have hkeywords : ∀ d, ∀ p ∈ keywords ++ renderedKeywords, p.2 ∉ symbols d := by
    intro d
    cases d <;> decide
  rcases ofWord_cases d' word with h | h | h
  · exact hkeywords d _ h
  · rw [h]
    cases d <;> simp [symbols]
  · rw [h]
    cases d <;> simp [symbols]

theorem symbol?_isPrefix (h : symbol? d cs = some t) : t.spelling.toList <+: cs := by
  have hprefix := List.find?_some h
  exact List.isPrefixOf_iff_prefix.1 hprefix

theorem scan_symbol (h : (scan d pos c cs).found = some (.ok l)) (ht : l.token ∈ symbols d) :
    ∃ ys, c :: cs = l.token.spelling.toList ++ ys ∧ l.stop = pos + l.token.spelling.length := by
  unfold scan at h
  split at h
  · next t hsymbol =>
    cases h
    obtain ⟨ys, hys⟩ := symbol?_isPrefix hsymbol
    exact ⟨ys, hys.symm, rfl⟩
  · dsimp only at h
    split_ifs at h <;> cases h
    · cases d <;> simp [symbols] at ht
    · cases d <;> simp [symbols] at ht
    · exact absurd ht (not_mem_symbols_ofWord _ _ _)

/-- A symbol ends where its spelling in the text does. -/
theorem lexFrom_symbol (h : .ok l ∈ lexFrom d skip pos cs) (ht : l.token ∈ symbols d) :
    ∃ xs ys, cs = xs ++ l.token.spelling.toList ++ ys ∧
      l.stop = pos + byteCount xs + l.token.spelling.length := by
  have hlater {pos : Nat} {c : Char} {cs : List Char}
      (h : ∃ xs ys, cs = xs ++ l.token.spelling.toList ++ ys ∧
        l.stop = pos + c.utf8Size + byteCount xs + l.token.spelling.length) :
      ∃ xs ys, c :: cs = xs ++ l.token.spelling.toList ++ ys ∧
        l.stop = pos + byteCount xs + l.token.spelling.length := by
    obtain ⟨xs, ys, rfl, hstop⟩ := h
    exact ⟨c :: xs, ys, rfl, by rw [hstop, byteCount_cons, Nat.add_assoc pos]⟩
  fun_induction lexFrom d skip pos cs with
  | case1 => cases h
  | case2 skip pos c cs ih => exact hlater (ih h)
  | case3 pos c cs item rest x hx ih =>
    rcases List.mem_cons.1 h with rfl | h
    · obtain ⟨ys, hcs, hstop⟩ := scan_symbol hx ht
      exact ⟨[], ys, hcs, by rw [hstop, byteCount_nil, Nat.add_zero]⟩
    · exact hlater (ih h)
  | case4 pos c cs item rest hx ih => exact hlater (ih h)

/-- The text is read as the tokens, wherever it stands. -/
def Lexes (d : Dialect) (cs : List Char) (ts : List Token) : Prop :=
  ∀ pos, ∃ ls : List Lexeme, lexFrom d 0 pos cs = ls.map .ok ∧ ls.map (·.token) = ts

theorem Lexes.lexemes (h : Lexes d cs ts) :
    ∃ ls, Token.lexemes d cs = .ok ls ∧ ls.map (·.token) = ts := by
  obtain ⟨ls, hls, hts⟩ := h 0
  exact ⟨ls, collect_eq_ok.2 hls, hts⟩

theorem Lexes.nil (d : Dialect) : Lexes d [] [] :=
  fun _ => ⟨[], rfl, rfl⟩

theorem lexFrom_skip (d : Dialect) (pos : Nat) (xs cs : List Char) :
    ∃ p, lexFrom d xs.length pos (xs ++ cs) = lexFrom d 0 p cs := by
  induction xs generalizing pos with
  | nil => exact ⟨pos, rfl⟩
  | cons x xs ih => exact ih (pos + x.utf8Size)

theorem Lexes.token (h : Lexes d cs ts)
    (hs : ∀ pos, ∃ stop, scan d pos c (xs ++ cs) = ⟨some (.ok ⟨pos, stop, t⟩), xs.length⟩) :
    Lexes d (c :: xs ++ cs) (t :: ts) := by
  intro pos
  obtain ⟨stop, hstop⟩ := hs pos
  obtain ⟨p, hp⟩ := lexFrom_skip d (pos + c.utf8Size) xs cs
  obtain ⟨ls, hls, rfl⟩ := h p
  refine ⟨⟨pos, stop, t⟩ :: ls, ?_, rfl⟩
  simp only [List.cons_append, lexFrom, hstop, hp, hls, List.map_cons]

def symbolChars : List Char :=
  "+-*/%=<>!&|()[]\x7b\x7d,:".toList

/-- The characters that a longer symbol may go on with. -/
def joining : List Char :=
  ['=', '*', '&', '|']

theorem spelling_mem (ht : t ∈ symbols d) :
    ∃ c cs, t.spelling.toList = c :: cs ∧ c ∈ symbolChars := by
  have h : ∀ d, ∀ t ∈ symbols d, t.spelling.toList ≠ [] ∧
      ∀ c ∈ t.spelling.toList.head?, c ∈ symbolChars := by
    intro d
    cases d <;> decide +kernel
  obtain ⟨hne, hc⟩ := h d t ht
  obtain ⟨c, cs, hcs⟩ := List.exists_cons_of_ne_nil hne
  exact ⟨c, cs, hcs, hc c (by rw [hcs]; rfl)⟩

theorem symbol?_eq_none (h : c ∉ symbolChars) : symbol? d (c :: cs) = none := by
  apply List.find?_eq_none.2
  intro t ht hp
  obtain ⟨a, as, hs, ha⟩ := spelling_mem ht
  rw [hs, List.isPrefixOf_iff_prefix, List.cons_prefix_cons] at hp
  exact h (hp.1 ▸ ha)

/-- A symbol that begins with another one goes on with a joining character. -/
theorem mem_joining (ht : t ∈ symbols d) (hu : u ∈ symbols d)
    (h : u.spelling.toList = t.spelling.toList ++ c :: cs) : c ∈ joining := by
  have hall : ∀ d, ∀ t ∈ symbols d, ∀ u ∈ symbols d,
      t.spelling.toList.isPrefixOf u.spelling.toList = true →
        ∀ c ∈ (u.spelling.toList.drop t.spelling.toList.length).head?, c ∈ joining := by
    intro d
    cases d <;> decide +kernel
  apply hall d t ht u hu
  · rw [h, List.isPrefixOf_iff_prefix]
    exact List.prefix_append _ _
  · rw [h, List.drop_left]
    rfl

/-- No symbol begins with this one and goes on with what follows. -/
def Parted (d : Dialect) (t : Token) (cs : List Char) : Prop :=
  ∀ c ∈ cs.head?, ∀ u ∈ symbols d, ∀ xs, u.spelling.toList ≠ t.spelling.toList ++ c :: xs

theorem parted_of_not_joining (ht : t ∈ symbols d) (hcs : ∀ c ∈ cs.head?, c ∉ joining) :
    Parted d t cs :=
  fun c hc _ hu _ hspelling => hcs c hc (mem_joining ht hu hspelling)

theorem symbol?_spelling (ht : t ∈ symbols d) (hcs : Parted d t cs) :
    symbol? d (t.spelling.toList ++ cs) = some t := by
  have hself : ∀ d, ∀ t ∈ symbols d,
      (symbols d).find? (fun u => u.spelling.toList.isPrefixOf t.spelling.toList) = some t := by
    intro d
    cases d <;> decide +kernel
  rw [← hself d t ht, symbol?]
  apply List.find?_congr
  intro u hu
  rw [Bool.eq_iff_iff, List.isPrefixOf_iff_prefix, List.isPrefixOf_iff_prefix]
  refine ⟨fun hp => ?_, fun hp => hp.trans (List.prefix_append _ _)⟩
  rcases List.prefix_or_prefix_of_prefix hp (List.prefix_append _ _) with h | ⟨r, hr⟩
  · exact h
  · cases r with
    | nil => exact ⟨[], by simpa using hr.symm⟩
    | cons c r =>
      rw [← hr, List.prefix_append_right_inj] at hp
      obtain ⟨r', rfl⟩ := hp
      exact absurd hr.symm (hcs c rfl u hu r)

theorem Lexes.symbol (h : Lexes d cs ts) (ht : t ∈ symbols d) (hcs : Parted d t cs) :
    Lexes d (t.spelling.toList ++ cs) (t :: ts) := by
  have hs := symbol?_spelling ht hcs
  obtain ⟨c, xs, hxs, -⟩ := spelling_mem ht
  rw [hxs] at hs ⊢
  apply h.token
  intro pos
  refine ⟨pos + t.spelling.length, ?_⟩
  rw [List.cons_append] at hs
  have hlen : t.spelling.length = xs.length + 1 := by
    rw [← String.length_toList, hxs, List.length_cons]
  simp only [scan, hs, hlen, Nat.add_sub_cancel]

theorem Lexes.blank (h : Lexes d cs ts) : Lexes d (' ' :: cs) ts := by
  intro pos
  obtain ⟨ls, hls, rfl⟩ := h (pos + 1)
  refine ⟨ls, ?_, rfl⟩
  have hsym : symbol? d (' ' :: cs) = none := symbol?_eq_none (by decide)
  have hscan : scan d pos ' ' cs = ⟨none, 0⟩ := by
    simp only [scan, hsym, startsNumber]
    rfl
  simp only [lexFrom, hscan]
  exact hls

/-- The characters that words and numbers end before. -/
def delimiters : List Char :=
  [' ', '(', ')', ',', '*', '/']

/-- Words and numbers end here. -/
def Delimited (cs : List Char) : Prop :=
  ∀ c ∈ cs.head?, c ∈ delimiters

theorem takeWhile_append_stop {p : α → Bool} {xs cs : List α} (hxs : ∀ x ∈ xs, p x = true)
    (hcs : ∀ c ∈ cs.head?, p c = false) : (xs ++ cs).takeWhile p = xs := by
  rw [List.takeWhile_append_of_pos hxs]
  cases cs with
  | nil => simp
  | cons c cs => simp [hcs c rfl]

theorem mem_digits_of_isDigit (h : c.isDigit = true) : c ∈ "0123456789".toList := by
  have hall : ∀ n < 58, 48 ≤ n → Char.ofNat n ∈ "0123456789".toList := by
    decide +kernel
  simp only [Char.isDigit, Bool.and_eq_true, decide_eq_true_eq] at h
  have hle : 48 ≤ c.toNat ∧ c.toNat ≤ 57 := ⟨h.1, h.2⟩
  simpa using hall c.toNat (by omega) hle.1

theorem startsNumber_cons (h : c ≠ '.') : startsNumber (c :: cs) = c.isDigit := by
  unfold startsNumber
  split
  · next h' => exact absurd (List.cons.inj h').1 h
  · next h' => rw [(List.cons.inj h').1]
  · next h' => cases h'

theorem Lexes.word (h : Lexes d cs ts) (hc : isIdentStart c = true)
    (hxs : ∀ x ∈ xs, isIdentContinue x = true) (hcs : Delimited cs) :
    Lexes d (c :: xs ++ cs) (ofWord d (.ofList (c :: xs)) :: ts) := by
  have hother : ∀ x ∈ symbolChars ++ "#.0123456789".toList, isIdentStart x = false := by
    decide +kernel
  have hne : ∀ x ∈ symbolChars ++ "#.0123456789".toList, c ≠ x := by
    rintro x hx rfl
    rw [hother c hx] at hc
    cases hc
  have hsym : symbol? d (c :: (xs ++ cs)) = none :=
    symbol?_eq_none fun hmem => hne c (List.mem_append_left _ hmem) rfl
  have hnum : startsNumber (c :: (xs ++ cs)) = false := by
    rw [startsNumber_cons (hne '.' (by decide +kernel))]
    apply Bool.eq_false_iff.2
    intro hd
    apply hne c _ rfl
    exact List.mem_append_right _ (List.mem_append_right ['#', '.'] (mem_digits_of_isDigit hd))
  have hdelim : ∀ x ∈ delimiters, isIdentContinue x = false := by
    decide +kernel
  apply h.token
  intro pos
  refine ⟨pos + byteCount (c :: xs), ?_⟩
  simp [scan, hsym, hnum, hc, takeWhile_append_stop hxs fun x hx => hdelim x (hcs x hx),
    hne '!' (by decide +kernel), hne '#' (by decide +kernel), hne '.' (by decide +kernel)]

theorem append_isPrefix {xs ys cs : List α} (h : xs <+: cs) (h' : ys <+: cs.drop xs.length) :
    xs ++ ys <+: cs := by
  obtain ⟨zs, rfl⟩ := h
  rwa [List.drop_left, ← List.prefix_append_right_inj xs] at h'

theorem digits_isPrefix (cs : List Char) : digits cs <+: cs :=
  List.takeWhile_prefix _

theorem mantissa_isPrefix (h : startsNumber cs = true) : mantissa cs <+: cs := by
  unfold mantissa
  split
  · next hnone =>
    unfold startsNumber at h
    split at h
    · exact (List.prefix_cons_inj '.').2 (digits_isPrefix _)
    · next c cs _ => simp [digits, isDecimalDigit_of_isDigit h] at hnone
    · cases h
  · split
    · next rest hrest =>
      apply append_isPrefix (digits_isPrefix cs)
      rw [hrest]
      exact (List.prefix_cons_inj '.').2 (digits_isPrefix rest)
    · exact digits_isPrefix cs

theorem power_isPrefix (cs : List Char) : power cs <+: cs := by
  unfold power
  split
  · next c cs =>
    split_ifs
    · dsimp only
      split
      · exact List.nil_prefix
      · rw [List.cons_append, List.prefix_cons_inj]
        apply append_isPrefix _ (digits_isPrefix _)
        split <;> simp
    · exact List.nil_prefix
  · exact List.prefix_refl _

theorem literal_isPrefix (h : startsNumber cs = true) : literal cs <+: cs :=
  append_isPrefix (mantissa_isPrefix h) (power_isPrefix _)

theorem spelling_ofWord (word : String) : (ofWord .equation word).spelling = word := by
  have hkeywords : ∀ x ∈ keywords, x.2.spelling = x.1 := by decide
  simp only [ofWord]
  split
  · next t ht => exact hkeywords _ (mem_of_lookup ht)
  · split_ifs <;> rfl

theorem length_le_byteCount (cs : List Char) : cs.length ≤ byteCount cs := by
  induction cs with
  | nil => exact Nat.zero_le _
  | cons c cs ih =>
    have hc := c.utf8Size_pos
    rw [List.length_cons, byteCount_cons]
    omega

/-- An equation's token stands in the text as it is spelled, and no other begins within it. -/
theorem scan_spelling (h : (scan .equation pos c cs).found = some (.ok l)) :
    l.token.spelling.toList <+: c :: cs ∧
      l.token.spelling.toList.length ≤ (scan .equation pos c cs).more + 1 := by
  unfold scan at h ⊢
  split at h
  · next t ht =>
    cases h
    refine ⟨symbol?_isPrefix ht, ?_⟩
    rw [String.length_toList]
    exact Nat.le_add_of_sub_le le_rfl
  · dsimp only at h ⊢
    split_ifs at h ⊢ with h₁ h₂ h₃ h₄ h₅ h₆ h₇ <;> cases h
    · have hlen := length_le_byteCount (literal (c :: cs))
      simp only [Token.spelling, String.toList_ofList]
      exact ⟨literal_isPrefix h₃, by omega⟩
    · have hc : c = '.' := by simpa using h₄
      simp [Token.spelling, hc]
    · rw [spelling_ofWord, String.toList_ofList]
      refine ⟨(List.prefix_cons_inj c).2 (List.takeWhile_prefix _), ?_⟩
      simp

theorem lexFrom_sublist (skip pos : Nat) (cs : List Char) :
    ∀ ls : List Lexeme, lexFrom .equation skip pos cs = ls.map .ok →
      (ls.flatMap fun l => l.token.spelling.toList).Sublist (cs.drop skip) := by
  fun_induction lexFrom .equation skip pos cs with
  | case1 =>
    intro ls h
    rw [List.nil_eq, List.map_eq_nil_iff] at h
    subst h
    exact List.nil_sublist _
  | case2 skip pos c cs ih => exact ih
  | case3 pos c cs item rest x hx ih =>
    intro ls h
    obtain ⟨l, ls, rfl, rfl, hrest⟩ := List.map_eq_cons_iff.1 h.symm
    obtain ⟨⟨ys, hys⟩, hlen⟩ := scan_spelling hx
    have hrest' : (c :: cs).drop l.token.spelling.toList.length = ys := by
      rw [← hys, List.drop_left]
    rw [List.flatMap_cons, List.drop_zero, ← hys]
    apply List.Sublist.append_left
    apply (ih ls hrest.symm).trans
    rw [← hrest']
    exact List.drop_sublist_drop_left (c :: cs) hlen
  | case4 pos c cs item rest hx ih =>
    intro ls h
    exact (ih ls h).trans ((List.drop_sublist _ _).trans (List.sublist_cons_self c cs))

/-- The tokens of an equation stand in its text as they are spelled, one behind the other. -/
theorem spellings_sublist (h : lexemes .equation cs = .ok ls) :
    (ls.flatMap fun l => l.token.spelling.toList).Sublist cs :=
  lexFrom_sublist 0 0 cs ls (collect_eq_ok.1 h)

end Formulae.Token
