import Formulae.Proofs.Token.Numeral

namespace Formulae.Text
set_option autoImplicit true

/-- The characters `ys` stand at the bytes `start ≤ i < stop` of the text, and both offsets are
between characters. -/
def StandsAt (text : List Char) (start stop : Nat) (ys : List Char) : Prop :=
  ∃ xs zs, text = xs ++ ys ++ zs ∧ start = byteCount xs ∧ stop = byteCount xs + byteCount ys

theorem byteCount_pos (h : cs ≠ []) : 0 < byteCount cs := by
  obtain ⟨c, cs, rfl⟩ := List.exists_cons_of_ne_nil h
  exact Nat.lt_of_lt_of_le c.utf8Size_pos (Nat.le_add_right _ _)

theorem byteCount_mono (h : xs <+: ys) : byteCount xs ≤ byteCount ys := by
  obtain ⟨zs, rfl⟩ := h
  rw [byteCount_append]
  exact Nat.le_add_right _ _

/-- Of two beginnings of a text the shorter one has fewer bytes. -/
theorem byteCount_lt (hxs : xs <+: text) (hys : ys <+: text) (h : ¬ ys <+: xs) :
    byteCount xs < byteCount ys := by
  obtain hshort | hlong := List.prefix_or_prefix_of_prefix hxs hys
  · obtain ⟨zs, rfl⟩ := hshort
    have hne : zs ≠ [] := by
      intro hnil
      rw [hnil, List.append_nil] at h
      exact h (List.prefix_refl xs)
    have hpos := byteCount_pos hne
    rw [byteCount_append]
    omega
  · exact absurd hlong h

theorem StandsAt.stop_le (h : StandsAt text start stop ys) : stop ≤ byteCount text := by
  obtain ⟨xs, zs, rfl, -, rfl⟩ := h
  rw [byteCount_append, byteCount_append]
  omega

theorem StandsAt.lt (h : StandsAt text start stop ys) (hne : ys ≠ []) : start < stop := by
  obtain ⟨xs, zs, -, rfl, rfl⟩ := h
  have hpos := byteCount_pos hne
  omega

theorem StandsAt.mem (h : StandsAt text start stop ys) (hc : c ∈ ys) : c ∈ text := by
  obtain ⟨xs, zs, rfl, -, -⟩ := h
  exact List.mem_append_left _ (List.mem_append_right _ hc)

end Formulae.Text

namespace Formulae.Token
open Text
set_option autoImplicit true

/-- A text that the token may be written as: its spelling, or in rendered texts the other word for
a truth value. -/
def IsSpelling (d : Dialect) (t : Token) (ys : List Char) : Prop :=
  ys = t.spelling.toList ∨ d = .rendered ∧ (.ofList ys, t) ∈ renderedKeywords

/-- The text is taken for the token, by its form. -/
inductive Spelled (d : Dialect) : Token → List Char → Prop
  | symbol : t ∈ symbols d → Spelled d t t.spelling.toList
  | word : isIdentStart c = true → (∀ x ∈ cs, isIdentContinue x = true) →
      Spelled d (ofWord d (.ofList (c :: cs))) (c :: cs)
  | number : startsNumber cs = true → Spelled d (.number (.ofList (literal cs))) (literal cs)
  | dot : Spelled d .dot ['.']

theorem isSpelling_ofWord (d : Dialect) (ys : List Char) :
    IsSpelling d (ofWord d (.ofList ys)) ys := by
  have hkeywords : ∀ x ∈ keywords, x.2.spelling = x.1 := by decide
  unfold ofWord
  dsimp only
  split
  · next t ht =>
    cases d with
    | equation =>
      apply Or.inl
      rw [hkeywords _ (mem_of_lookup ht), String.toList_ofList]
    | rendered =>
      rcases List.mem_append.1 (mem_of_lookup ht) with hmem | hmem
      · apply Or.inl
        rw [hkeywords _ hmem, String.toList_ofList]
      · exact .inr ⟨rfl, hmem⟩
  · apply Or.inl
    split <;> simp [spelling]

theorem Spelled.isSpelling (h : Spelled d t ys) : IsSpelling d t ys := by
  cases h with
  | symbol => exact .inl rfl
  | @word c cs => exact isSpelling_ofWord d (c :: cs)
  | number =>
    apply Or.inl
    rw [spelling, String.toList_ofList]
  | dot => exact .inl rfl

theorem mantissa_ne_nil (cs : List Char) : mantissa cs ≠ [] := by
  unfold mantissa
  split
  · simp
  · next ds hds =>
    split
    · simp
    · exact hds

theorem Spelled.ne_nil (h : Spelled d t ys) : ys ≠ [] := by
  cases h with
  | symbol ht =>
    obtain ⟨c, cs, hcs, -⟩ := spelling_mem ht
    rw [hcs]
    exact List.cons_ne_nil c cs
  | word => exact List.cons_ne_nil _ _
  | number => exact List.append_ne_nil_of_left_ne_nil (mantissa_ne_nil _) _
  | dot => exact List.cons_ne_nil _ _

/-- The token is a numeral, if it is a number. A digit above ASCII may make a number of another. -/
def Numerical (t : Token) : Prop :=
  ∀ s, t = .number s → ∃ m p, s.toList = m ++ p ∧ Mantissa m ∧ Power p

theorem byteCount_symbol (ht : t ∈ symbols d) : byteCount t.spelling.toList = t.spelling.length := by
  have hall : ∀ d, ∀ t ∈ symbols d, byteCount t.spelling.toList = t.spelling.length := by
    intro d
    cases d <;> decide +kernel
  exact hall d t ht

/-- A token that is found begins where it is looked for. All its characters belong to it, and no
others unless it is a number that is not a numeral. -/
theorem scan_found (h : (scan d pos c cs).found = some (.ok l)) :
    ∃ ys, ys <+: c :: cs ∧ Spelled d l.token ys ∧ l.start = pos ∧ l.stop = pos + byteCount ys ∧
      ys.length ≤ (scan d pos c cs).more + 1 ∧
      (Numerical l.token → ys.length = (scan d pos c cs).more + 1) := by
  unfold scan at h ⊢
  split at h
  · next t hsymbol =>
    cases h
    have ht := symbol?_mem hsymbol
    have hlen : t.spelling.toList.length = t.spelling.length - 1 + 1 := by
      obtain ⟨c, cs, hcs, -⟩ := spelling_mem ht
      rw [← String.length_toList, hcs]
      rfl
    refine ⟨_, symbol?_isPrefix hsymbol, .symbol ht, rfl, ?_, hlen.le, fun _ => hlen⟩
    rw [byteCount_symbol ht]
  · dsimp only at h ⊢
    split_ifs at h ⊢ with h₁ h₂ h₃ h₄ h₅ h₆ h₇ <;> cases h
    · have hlen := length_le_byteCount (literal (c :: cs))
      have hspelled : Spelled d _ (literal (c :: cs)) := .number h₃
      have hpos := List.length_pos_iff.2 hspelled.ne_nil
      refine ⟨_, literal_isPrefix h₃, hspelled, rfl, rfl, by dsimp only; omega, fun hnum => ?_⟩
      obtain ⟨m, p, hs, hm, hp⟩ := hnum _ rfl
      have hbytes := byteCount_numeral hm hp
      rw [← hs, String.toList_ofList] at hbytes
      dsimp only
      omega
    · obtain rfl : c = '.' := by simpa using h₄
      exact ⟨['.'], by simp, .dot, rfl, rfl, le_rfl, fun _ => rfl⟩
    · refine ⟨_, (List.prefix_cons_inj c).2 (List.takeWhile_prefix _), .word h₅ ?_, rfl, rfl,
        le_rfl, fun _ => rfl⟩
      intro x hx
      exact List.all_eq_true.1 List.all_takeWhile x hx

/-- Where nothing is found and there is no fault, there is a comment or white space. -/
theorem scan_none (h : (scan d pos c cs).found = none) :
    c = '#' ∧ (scan d pos c cs).more = (cs.takeWhile (· != '\n')).length ∨
      isWhiteSpace c = true ∧ (scan d pos c cs).more = 0 := by
  unfold scan at h ⊢
  split at h
  · cases h
  · dsimp only at h ⊢
    split_ifs at h ⊢ with h₁ h₂ h₃ h₄ h₅ h₆ h₇ <;> cases h
    · exact .inl ⟨by simpa using h₂, rfl⟩
    · exact .inr ⟨h₇, rfl⟩

/-- The bytes of the token spell it. -/
def Stands (d : Dialect) (text : List Char) (l : Lexeme) : Prop :=
  ∃ ys, StandsAt text l.start l.stop ys ∧ Spelled d l.token ys

theorem Stands.lt (h : Stands d text l) : l.start < l.stop := by
  obtain ⟨ys, hstands, hys⟩ := h
  exact hstands.lt hys.ne_nil

theorem Stands.stop_le (h : Stands d text l) : l.stop ≤ byteCount text := by
  obtain ⟨ys, hstands, -⟩ := h
  exact hstands.stop_le

theorem take_succ_isPrefix (before : List Char) (c : Char) (cs : List Char) (n : Nat) :
    before ++ (c :: cs).take (n + 1) = before ++ [c] ++ cs.take n := by
  simp

/-- Behind `before` the tokens stand in the text, and none of them begins among the characters that
are skipped. -/
theorem lexFrom_stands (h : .ok l ∈ lexFrom d skip pos cs) :
    ∀ before, pos = byteCount before →
      Stands d (before ++ cs) l ∧ byteCount (before ++ cs.take skip) ≤ l.start := by
  fun_induction lexFrom d skip pos cs with
  | case1 => cases h
  | case2 skip pos c cs ih =>
    intro before hpos
    rw [take_succ_isPrefix, List.append_cons]
    exact ih h (before ++ [c]) (by simp [hpos])
  | case3 pos c cs item rest x hx ih =>
    intro before hpos
    rw [List.take_zero, List.append_nil]
    rcases List.mem_cons.1 h with rfl | h
    · obtain ⟨ys, ⟨zs, hzs⟩, hys, hstart, hstop, -⟩ := scan_found hx
      have htext : before ++ c :: cs = before ++ ys ++ zs := by rw [List.append_assoc, hzs]
      rw [hpos] at hstart hstop
      exact ⟨⟨ys, ⟨before, zs, htext, hstart, hstop⟩, hys⟩, hstart.ge⟩
    · obtain ⟨hstands, hle⟩ := ih h (before ++ [c]) (by simp [hpos])
      rw [List.append_assoc, byteCount_append] at hle
      rw [List.append_cons]
      exact ⟨hstands, (Nat.le_add_right _ _).trans hle⟩
  | case4 pos c cs item rest hx ih =>
    intro before hpos
    obtain ⟨hstands, hle⟩ := ih h (before ++ [c]) (by simp [hpos])
    rw [List.append_assoc, byteCount_append] at hle
    rw [List.append_cons, List.take_zero, List.append_nil]
    exact ⟨hstands, (Nat.le_add_right _ _).trans hle⟩

/-- Each token ends before the next one begins. -/
theorem lexFrom_ordered (d : Dialect) (skip pos : Nat) (cs : List Char) :
    ∀ before, pos = byteCount before → (lexFrom d skip pos cs).Pairwise fun x y =>
      ∀ l, x = .ok l → ∀ m, y = .ok m → l.stop ≤ m.start := by
  fun_induction lexFrom d skip pos cs with
  | case1 => exact fun _ _ => .nil
  | case2 skip pos c cs ih => exact fun before hpos => ih (before ++ [c]) (by simp [hpos])
  | case3 pos c cs item rest x hx ih =>
    intro before hpos
    have hnext : pos + c.utf8Size = byteCount (before ++ [c]) := by simp [hpos]
    apply List.Pairwise.cons _ (ih _ hnext)
    rintro y hy l rfl m rfl
    obtain ⟨ys, hbegins, -, -, hstop, hlen, -⟩ := scan_found hx
    -- The next token begins behind all that is skipped, and this one has no more characters.
    have hwithin : ys <+: c :: cs.take item.more := by
      apply List.prefix_of_prefix_length_le hbegins (List.take_prefix (item.more + 1) (c :: cs))
      rw [List.length_take]
      exact le_min hlen hbegins.length_le
    have hbytes := byteCount_mono hwithin
    obtain ⟨-, hstart⟩ := lexFrom_stands hy _ hnext
    simp only [byteCount_append, byteCount_cons, byteCount_nil] at hbytes hstart
    omega
  | case4 pos c cs item rest hx ih => exact fun before hpos => ih (before ++ [c]) (by simp [hpos])

theorem lexFrom_length_le (d : Dialect) (skip pos : Nat) (cs : List Char) :
    (lexFrom d skip pos cs).length ≤ cs.length := by
  fun_induction lexFrom d skip pos cs with
  | case1 => exact le_rfl
  | case2 skip pos c cs ih => exact Nat.le_succ_of_le ih
  | case3 pos c cs item rest x hx ih => exact Nat.succ_le_succ ih
  | case4 pos c cs item rest hx ih => exact Nat.le_succ_of_le ih

/-- The text, which begins at the byte `pos` of a longer one, is made of the tokens, of white space
and of a comment at its end. -/
inductive LaidOut (d : Dialect) : Nat → List Char → List Lexeme → Prop
  | nil : LaidOut d pos [] []
  | comment : '\n' ∉ cs → LaidOut d pos ('#' :: cs) []
  | blank : isWhiteSpace c = true → LaidOut d (pos + c.utf8Size) cs ls → LaidOut d pos (c :: cs) ls
  | token : l.start = pos → l.stop = pos + byteCount ys → Spelled d l.token ys →
      LaidOut d (pos + byteCount ys) cs ls → LaidOut d pos (ys ++ cs) (l :: ls)

theorem scan_newline (d : Dialect) (pos : Nat) (cs : List Char) :
    ∃ f, (scan d pos '\n' cs).found = some (.error f) := by
  have hsymbol : symbol? d ('\n' :: cs) = none := symbol?_eq_none (by decide +kernel)
  have hnumber : startsNumber ('\n' :: cs) = false := startsNumber_cons (by decide)
  have hstart : isIdentStart '\n' = false := by decide
  simp [scan, hsymbol, hnumber, hstart]

/-- Behind a comment there is no further line of a text without faults. -/
theorem lexFrom_comment (h : lexFrom d (cs.takeWhile (· != '\n')).length pos cs = ls.map .ok) :
    '\n' ∉ cs ∧ ls = [] := by
  have hcs : cs.takeWhile (· != '\n') ++ cs.dropWhile (· != '\n') = cs :=
    List.takeWhile_append_dropWhile
  obtain ⟨p, hp⟩ := lexFrom_skip d pos (cs.takeWhile (· != '\n')) (cs.dropWhile (· != '\n'))
  rw [hcs, h] at hp
  cases hrest : cs.dropWhile (· != '\n') with
  | nil =>
    rw [hrest, lexFrom, List.map_eq_nil_iff] at hp
    rw [hrest, List.append_nil] at hcs
    refine ⟨fun hmem => ?_, hp⟩
    rw [← hcs] at hmem
    exact absurd (List.all_eq_true.1 List.all_takeWhile _ hmem) (by decide)
  | cons c rest =>
    have hc := List.head?_dropWhile_not (· != '\n') cs
    rw [hrest] at hc
    obtain rfl : c = '\n' := by simpa using hc
    obtain ⟨f, hf⟩ := scan_newline d p rest
    simp only [hrest, lexFrom, hf] at hp
    cases ls <;> cases hp

theorem lexFrom_laidOut (skip pos : Nat) (cs : List Char) :
    ∀ ls : List Lexeme, lexFrom d skip pos cs = ls.map .ok → (∀ l ∈ ls, Numerical l.token) →
      LaidOut d (pos + byteCount (cs.take skip)) (cs.drop skip) ls := by
  -- What is skipped belongs to the token before, and so only the rest is laid out.
  fun_induction lexFrom d skip pos cs with
  | case1 =>
    intro ls h _
    rw [List.nil_eq, List.map_eq_nil_iff] at h
    rw [h, List.drop_nil]
    exact .nil
  | case2 skip pos c cs ih =>
    intro ls h hls
    have hrest := ih ls h hls
    rwa [Nat.add_assoc] at hrest
  | case3 pos c cs item rest x hx ih =>
    intro ls h hls
    obtain ⟨l, ls, rfl, rfl, hrest⟩ := List.map_eq_cons_iff.1 h.symm
    rw [List.forall_mem_cons] at hls
    obtain ⟨ys, hbegins, hys, hstart, hstop, -, hlen⟩ := scan_found hx
    have hall : ys = c :: cs.take item.more := by
      rw [List.prefix_iff_eq_take.1 hbegins, hlen hls.1]
      rfl
    have hlaid := ih ls hrest.symm hls.2
    rw [Nat.add_assoc, ← byteCount_cons, ← hall] at hlaid
    have htoken := LaidOut.token hstart hstop hys hlaid
    rwa [hall, List.cons_append, List.take_append_drop] at htoken
  | case4 pos c cs item rest hx ih =>
    intro ls h hls
    rcases scan_none hx with ⟨rfl, hmore⟩ | ⟨hblank, hmore⟩
    · simp only [rest, item, hmore] at h
      obtain ⟨hcs, rfl⟩ := lexFrom_comment h
      exact .comment hcs
    · have hlaid := ih ls h hls
      simp only [item, hmore] at hlaid
      exact .blank hblank hlaid

/-- What the character behind `xs` belongs to, in a text that begins at the byte `pos`: to one of the
tokens, to white space, or to a comment that begins behind all tokens and runs to the end. -/
inductive Accounted (pos : Nat) (text : List Char) (ls : List Lexeme) (xs : List Char) (c : Char) :
    Prop
  | token : l ∈ ls → l.start ≤ pos + byteCount xs → pos + byteCount xs < l.stop →
      Accounted pos text ls xs c
  | blank : isWhiteSpace c = true → Accounted pos text ls xs c
  | comment : text = ws ++ '#' :: vs → '\n' ∉ vs → ws <+: xs →
      (∀ l ∈ ls, l.stop ≤ pos + byteCount ws) → Accounted pos text ls xs c

theorem Accounted.behind (h : Accounted (pos + byteCount ys) text ls xs c)
    (hms : ∀ l ∈ ms, l.stop ≤ pos + byteCount ys) :
    Accounted pos (ys ++ text) (ms ++ ls) (ys ++ xs) c := by
  cases h with
  | token hl hstart hstop =>
    rw [Nat.add_assoc, ← byteCount_append] at hstart hstop
    exact .token (List.mem_append_right _ hl) hstart hstop
  | blank hblank => exact .blank hblank
  | @comment ws vs htext hline hws hls =>
    have htext' : ys ++ text = ys ++ ws ++ '#' :: vs := by rw [htext, List.append_assoc]
    apply Accounted.comment htext' hline ((List.prefix_append_right_inj ys).2 hws)
    rw [byteCount_append, ← Nat.add_assoc]
    intro l hl
    rcases List.mem_append.1 hl with hl | hl
    · exact (hms l hl).trans (Nat.le_add_right _ _)
    · exact hls l hl

theorem LaidOut.accounted (h : LaidOut d pos cs ls) (hcs : cs = xs ++ c :: zs) :
    Accounted pos cs ls xs c := by
  induction h generalizing xs with
  | nil => simp at hcs
  | comment hline => exact .comment rfl hline List.nil_prefix (by simp)
  | @blank c' pos cs ls hblank _ ih =>
    cases xs with
    | nil =>
      obtain ⟨rfl, -⟩ := List.cons.inj hcs
      exact .blank hblank
    | cons x xs =>
      rw [List.cons_append, List.cons.injEq] at hcs
      obtain ⟨rfl, hcs⟩ := hcs
      change Accounted pos ([c'] ++ cs) ([] ++ ls) ([c'] ++ xs) c
      exact (ih hcs).behind (by simp)
  | @token pos ys cs ls l hstart hstop hys _ ih =>
    by_cases hbehind : ys <+: xs
    · obtain ⟨xs, rfl⟩ := hbehind
      rw [List.append_assoc, List.append_cancel_left_eq] at hcs
      change Accounted pos (ys ++ cs) ([l] ++ ls) (ys ++ xs) c
      apply (ih hcs).behind
      simp [hstop]
    · have hxs : xs <+: ys ++ cs := hcs ▸ List.prefix_append xs (c :: zs)
      have hlt := byteCount_lt hxs (List.prefix_append ys cs) hbehind
      apply Accounted.token List.mem_cons_self
      · rw [hstart]
        exact Nat.le_add_right _ _
      · rw [hstop]
        exact Nat.add_lt_add_left hlt pos

/-- The tokens of a text, whatever faults there are between them. -/
def found (d : Dialect) (text : List Char) : List Lexeme :=
  (lex d text).filterMap Except.toOption

theorem mem_found : l ∈ found d text ↔ .ok l ∈ lex d text := by
  simp only [found, List.mem_filterMap]
  constructor
  · rintro ⟨x, hx, hl⟩
    cases x with
    | error f => cases hl
    | ok m =>
      cases hl
      exact hx
  · intro h
    exact ⟨_, h, rfl⟩

theorem stands_of_mem_found (h : l ∈ found d text) : Stands d text l :=
  (lexFrom_stands (mem_found.1 h) [] rfl).1

theorem found_ordered (d : Dialect) (text : List Char) :
    (found d text).Pairwise fun l m => l.stop ≤ m.start := by
  apply List.pairwise_filterMap.2
  apply (lexFrom_ordered d 0 0 text [] rfl).imp
  intro x y hxy l hl m hm
  cases x with
  | error f => cases hl
  | ok x =>
    cases y with
    | error f => cases hm
    | ok y =>
      cases hl
      cases hm
      exact hxy _ rfl _ rfl

theorem found_of_lexemes (h : lexemes d text = .ok ls) : found d text = ls := by
  rw [found, collect_eq_ok.1 h, List.filterMap_map]
  exact List.filterMap_some

theorem laidOut_of_lexemes (h : lexemes d text = .ok ls) (hls : ∀ l ∈ ls, Numerical l.token) :
    LaidOut d 0 text ls :=
  lexFrom_laidOut 0 0 text ls (collect_eq_ok.1 h) hls

end Formulae.Token
