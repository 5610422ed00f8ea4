import Formulae.Proofs.Token.Standing
import Mathlib.Data.List.Forall2

namespace Formulae.Token
open Text
set_option autoImplicit true

/-- The decimal digits of the text are ASCII digits. -/
def AsciiDigits (cs : List Char) : Prop :=
  ∀ c ∈ cs, isDecimalDigit c = true → c.isDigit = true

instance (cs : List Char) : Decidable (AsciiDigits cs) :=
  inferInstanceAs (Decidable (∀ c ∈ cs, isDecimalDigit c = true → c.isDigit = true))

theorem AsciiDigits.left (h : AsciiDigits (xs ++ ys)) : AsciiDigits xs :=
  fun c hc => h c (List.mem_append_left _ hc)

theorem AsciiDigits.right (h : AsciiDigits (xs ++ ys)) : AsciiDigits ys :=
  fun c hc => h c (List.mem_append_right _ hc)

theorem AsciiDigits.tail (h : AsciiDigits (c :: cs)) : AsciiDigits cs :=
  fun x hx => h x (List.mem_cons_of_mem c hx)

theorem AsciiDigits.digits (h : AsciiDigits (digits cs)) : Digits (digits cs) :=
  fun c hc => h c hc (List.all_eq_true.1 List.all_takeWhile c hc)

theorem mantissa_of_asciiDigits (hcs : startsNumber cs = true) (h : AsciiDigits (mantissa cs)) :
    Mantissa (mantissa cs) := by
  unfold mantissa at h ⊢
  split at h
  · next hnone =>
    have hwhole : Digits [] := by simp [Digits]
    apply Mantissa.point hwhole h.tail.digits
    apply Or.inr
    unfold startsNumber at hcs
    split at hcs
    · next c cs =>
      simp [digits, isDecimalDigit_of_isDigit hcs]
    · next c cs _ => simp [digits, isDecimalDigit_of_isDigit hcs] at hnone
    · cases hcs
  · next ds hne =>
    split at h
    · exact .point h.left.digits h.right.tail.digits (.inl hne)
    · exact .whole h.digits hne

theorem power_of_asciiDigits (h : AsciiDigits (power cs)) : Power (power cs) := by
  unfold power at h ⊢
  split at h
  · next c cs =>
    split at h
    · next hc =>
      rw [if_pos hc]
      dsimp only at h ⊢
      split at h
      · exact .none
      · next hne =>
        apply Power.some _ _ h.right.digits hne
        · simpa using hc
        · split <;> simp
    · next hc =>
      rw [if_neg hc]
      exact .none
  · exact .none

theorem not_mem_symbols_number (d : Dialect) (s : String) : .number s ∉ symbols d := by
  cases d <;> simp [symbols]

theorem ofWord_ne_number (d : Dialect) (word s : String) : ofWord d word ≠ .number s := by
  have hkeywords : ∀ x ∈ keywords ++ renderedKeywords, ∀ s, x.2 ≠ .number s := by
    simp [keywords, renderedKeywords]
  rcases ofWord_cases d word with h | h | h
  · exact hkeywords _ h s
  · simp [h]
  · simp [h]

/-- A number with ASCII digits is a numeral. -/
theorem Spelled.numerical (h : Spelled d t ys) (hys : AsciiDigits ys) : Numerical t := by
  intro s hs
  cases h with
  | symbol ht => exact absurd (hs ▸ ht) (not_mem_symbols_number d s)
  | word => exact absurd hs (ofWord_ne_number d _ s)
  | number hcs =>
    obtain rfl := Token.number.inj hs
    rw [String.toList_ofList]
    exact ⟨_, _, rfl, mantissa_of_asciiDigits hcs hys.left, power_of_asciiDigits hys.right⟩
  | dot => cases hs

/-- The text has the form of a word. -/
def isWord : List Char → Bool
  | [] => false
  | c :: cs => isIdentStart c && cs.all isIdentContinue

theorem spelled_word (h : isWord w.toList = true) : Spelled d (ofWord d w) w.toList := by
  cases hw : w.toList with
  | nil => simp [hw, isWord] at h
  | cons c cs =>
    simp only [hw, isWord, Bool.and_eq_true, List.all_eq_true] at h
    obtain rfl : w = .ofList (c :: cs) := by rw [← hw, String.ofList_toList]
    exact .word h.1 h.2

/-- Every spelling of a token of a text is taken for it. -/
theorem Scanned.spelled (h : Scanned d t) (hys : IsSpelling d t ys) : Spelled d t ys := by
  have hrendered : ∀ x ∈ renderedKeywords,
      isWord x.1.toList = true ∧ ofWord .rendered x.1 = x.2 := by
    decide +kernel
  have hkeywords : ∀ d, ∀ x ∈ keywords ++ renderedKeywords,
      isWord x.2.spelling.toList = true ∧ ofWord d x.2.spelling = x.2 := by
    intro d
    cases d <;> decide +kernel
  rcases hys with rfl | ⟨rfl, hmem⟩
  · cases h with
    | symbol ht => exact .symbol ht
    | @word c cs hc hcs =>
      rcases ofWord_cases d (.ofList (c :: cs)) with hw | hw | hw
      · obtain ⟨hform, hword⟩ := hkeywords d _ hw
        have hspelled : Spelled d (ofWord d (ofWord d (.ofList (c :: cs))).spelling) _ :=
          spelled_word hform
        rwa [hword] at hspelled
      · have hspelled : Spelled d _ (c :: cs) := .word hc hcs
        rw [hw] at hspelled ⊢
        rwa [spelling, String.toList_ofList]
      · have hspelled : Spelled d _ (c :: cs) := .word hc hcs
        rw [hw] at hspelled ⊢
        rwa [spelling, String.toList_ofList]
    | number hcs =>
      rw [spelling, String.toList_ofList]
      exact .number hcs
    | dot => exact .dot
  · obtain ⟨hform, hword⟩ := hrendered _ hmem
    have hspelled : Spelled .rendered (ofWord .rendered (.ofList ys)) _ := spelled_word hform
    rwa [hword, String.toList_ofList] at hspelled

/-- Nothing follows, or a blank. -/
def Blanked (cs : List Char) : Prop :=
  ∀ c ∈ cs.head?, c = ' '

theorem Blanked.delimited (h : Blanked cs) : Delimited cs := by
  intro c hc
  rw [h c hc]
  decide

theorem Lexes.dot (h : Lexes d cs ts) (hcs : ∀ c ∈ cs.head?, c.isDigit = false) :
    Lexes d ('.' :: cs) (.dot :: ts) := by
  have hsymbol : symbol? d ('.' :: cs) = none := symbol?_eq_none (by decide +kernel)
  have hnumber : startsNumber ('.' :: cs) = false := by
    cases cs with
    | nil => rfl
    | cons c cs => exact hcs c rfl
  have hscan : ∀ pos, scan d pos '.' ([] ++ cs) = ⟨some (.ok ⟨pos, pos + 1, .dot⟩), 0⟩ := by
    simp [scan, hsymbol, hnumber]
  exact h.token fun pos => ⟨pos + 1, hscan pos⟩

/-- A token is recognized by its text alone, before a blank or the end. -/
theorem Spelled.lexes (h : Spelled d t ys) (ht : Numerical t) (hrest : Blanked rest)
    (hl : Lexes d rest us) : Lexes d (ys ++ rest) (t :: us) := by
  cases h with
  | symbol ht =>
    apply hl.symbol ht
    apply parted_of_not_joining ht
    intro c hc
    rw [hrest c hc]
    decide
  | word hc hcs => exact hl.word hc hcs hrest.delimited
  | number =>
    obtain ⟨m, p, hs, hm, hp⟩ := ht _ rfl
    rw [String.toList_ofList] at hs
    rw [hs]
    exact hl.number hm hp hrest.delimited
  | dot =>
    apply hl.dot
    intro c hc
    rw [hrest c hc]
    decide

/-- The texts with a blank between each two. -/
def spaced (words : List (List Char)) : List Char :=
  [' '].intercalate words

theorem lexes_spaced (h : List.Forall₂ (IsSpelling d) ts words)
    (hts : ∀ t ∈ ts, Scanned d t ∧ Numerical t) : Lexes d (spaced words) ts := by
  induction h with
  | nil => exact .nil d
  | @cons t ys ts words hys hwords ih =>
    rw [List.forall_mem_cons] at hts
    have hspelled := hts.1.1.spelled hys
    have hread := ih hts.2
    cases hwords with
    | nil =>
      have hend : Blanked [] := by simp [Blanked]
      have hlast := hspelled.lexes hts.1.2 hend hread
      rw [List.append_nil] at hlast
      simpa [spaced] using hlast
    | cons =>
      rw [spaced, List.intercalate_cons_cons, List.append_assoc]
      exact hspelled.lexes hts.1.2 (by simp [Blanked]) hread.blank

/-- The tokens of a text without faults, wherever they stand in it. -/
def tokens (d : Dialect) (text : List Char) : Except Fault (List Token) :=
  (lexemes d text).map (·.map (·.token))

/-- The tokens of a text are read again from their spellings. -/
theorem tokens_spaced (h : tokens d text = .ok ts) (hts : ∀ t ∈ ts, Numerical t)
    (hwords : List.Forall₂ (IsSpelling d) ts words) : tokens d (spaced words) = .ok ts := by
  obtain ⟨ls, hls, rfl⟩ := Outcome.map_eq_ok.1 h
  apply Outcome.map_eq_ok.2
  apply Lexes.lexemes
  apply lexes_spaced hwords
  intro t ht
  obtain ⟨l, hl, rfl⟩ := List.mem_map.1 ht
  exact ⟨lexemes_scanned hls hl, hts _ ht⟩

/-- In a text whose digits are ASCII digits all numbers are numerals. -/
theorem numerical_of_asciiDigits (h : tokens d text = .ok ts) (hdigits : AsciiDigits text) :
    ∀ t ∈ ts, Numerical t := by
  obtain ⟨ls, hls, rfl⟩ := Outcome.map_eq_ok.1 h
  rw [List.forall_mem_map]
  intro l hl
  rw [← found_of_lexemes hls] at hl
  obtain ⟨ys, hys, hspelled⟩ := stands_of_mem_found hl
  apply hspelled.numerical
  intro c hc
  exact hdigits c (hys.mem hc)

end Formulae.Token
