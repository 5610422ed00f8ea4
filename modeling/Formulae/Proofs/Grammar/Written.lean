import Formulae.Proofs.Grammar.Completeness
import Formulae.Proofs.Token.Spelling
import Formulae.Render.Plain

namespace Formulae.Grammar
open Outcome
open Token (IsName Spells Spaced symbols ofWord spells_word spells_number)
set_option autoImplicit true

/-- The text is read as the tree at a level of the grammar. -/
def Written (d : Dialect) (l : Level) (text : String) (e : Expr) : Prop :=
  ∃ ts, Derives d l ts e ∧ Spells d text.toList ts

theorem Written.loosen (h : Written d m text e) (hl : l.depth ≤ m.depth) : Written d l text e := by
  obtain ⟨ts, hd, hs⟩ := h
  exact ⟨ts, hd.loosen hl, hs⟩

theorem Written.anywhere (h : Written d .atom text e) (l : Level) : Written d l text e :=
  h.loosen (Nat.lt_succ_iff.1 l.depth_lt)

theorem Written.parse (h : Written d l text e) :
    (Expr.parse d text).map Expr.eraseSpans = .ok e := by
  have hl : Level.disjunction.depth ≤ l.depth := Nat.zero_le _
  obtain ⟨ts, hd, hs⟩ := h.loosen hl
  obtain ⟨ls, hls, rfl⟩ := hs.lexes.lexemes
  obtain ⟨e', he, rfl⟩ := wholeExpression_accepts hd (stopOf ls)
  simp only [Expr.parse, hls, ok_bind, he, Except.map]

theorem written_number (h : Decimal.read? s.toList = some n) :
    Written d .atom s (.number s n.toFloat .zero) :=
  ⟨_, .number h, spells_number h⟩

theorem written_var (h : IsName d x) : Written d .atom x (.var x .zero) :=
  ⟨_, .var, h.spells⟩

theorem written_word (hw : ofWord d w = .truth b) (hcs : w.toList = c :: cs)
    (hc : Text.isIdentStart c = true) (hcont : ∀ c ∈ cs, Text.isIdentContinue c = true) :
    Written d .atom w (.bool b .zero) :=
  ⟨_, .truth, hw ▸ spells_word hcs hc hcont⟩

theorem written_truth (d : Dialect) (b : Bool) :
    Written d .atom (if b then "True" else "False") (.bool b .zero) := by
  have hfalse : "False".toList = 'F' :: ['a', 'l', 's', 'e'] := by decide +kernel
  have htrue : "True".toList = 'T' :: ['r', 'u', 'e'] := by decide +kernel
  cases b
  · exact written_word (by cases d <;> decide) hfalse (by decide) (by decide)
  · exact written_word (by cases d <;> decide) htrue (by decide) (by decide)

theorem Written.parens (h : Written d .disjunction s e) :
    Written d .atom ("(" ++ s ++ ")") e := by
  obtain ⟨ts, hd, hs⟩ := h
  exact ⟨_, .parens hd, by simpa using hs.parens⟩

theorem Written.sign (h : Written d .factor s e) (hop : Signs d t op) :
    Written d .factor (t.spelling ++ s) (.unary op e .zero) := by
  obtain ⟨ts, hd, hs⟩ := h
  refine ⟨_, .sign hop hd, ?_⟩
  rw [String.toList_append]
  cases hop with
  | pos => exact hs.signed (by cases d <;> decide) (by decide) (by decide)
  | neg => exact hs.signed (by cases d <;> decide) (by decide) (by decide)
  | not hd =>
    subst hd
    exact hs.signed (by decide) (by decide) (by decide)

theorem Written.not (h : Written d .negation s e) :
    Written d .negation ("not " ++ s) (.unary .not e .zero) := by
  obtain ⟨ts, hd, hs⟩ := h
  exact ⟨_, .not hd, by simpa using hs.negated⟩

/-- The level of the expressions that bind as tightly as a number says. -/
def Level.ofPrecedence : Nat → Level
  | 0 | 1 => .disjunction
  | 2 => .conjunction
  | 3 => .negation
  | 4 => .comparison
  | 5 => .sum
  | 6 => .term
  | 7 => .factor
  | 8 => .power
  | _ => .application

theorem derives_binary (hl : Derives d (.ofPrecedence op.leftLevel) ts l)
    (hr : Derives d (.ofPrecedence op.rightLevel) us r) :
    Derives d (.ofPrecedence op.precedence) (ts ++ .op op :: us) (.binary op l r .zero) := by
  cases op with
  | add => exact .sum .add hl hr
  | sub => exact .sum .sub hl hr
  | mul => exact .term .mul hl hr
  | div => exact .term .div hl hr
  | mod => exact .term .mod hl hr
  | pow => exact .power hl hr

theorem Written.binary (hl : Written d (.ofPrecedence op.leftLevel) s l)
    (hr : Written d (.ofPrecedence op.rightLevel) s' r) :
    Written d (.ofPrecedence op.precedence) (s ++ " " ++ op.symbol ++ " " ++ s')
      (.binary op l r .zero) := by
  obtain ⟨ts, hl, hs⟩ := hl
  obtain ⟨us, hr, hs'⟩ := hr
  have hop : Token.op op ∈ symbols d := by cases d <;> cases op <;> decide
  exact ⟨_, derives_binary hl hr, by simpa [Token.spelling] using hs.between (.inl hop) hs'⟩

theorem Written.tight (hop : op ∈ [BinaryOp.mul, .div, .pow])
    (hl : Written d (.ofPrecedence op.leftLevel) s l)
    (hr : Written d (.ofPrecedence op.rightLevel) s' r) :
    Written d (.ofPrecedence op.precedence) (s ++ op.symbol ++ s') (.binary op l r .zero) := by
  obtain ⟨ts, hl, hs⟩ := hl
  obtain ⟨us, hr, hs'⟩ := hr
  have htight : Token.op op ∈ [Token.op .mul, .op .div, .op .pow] := by simpa using hop
  exact ⟨_, derives_binary hl hr, by simpa [Token.spelling] using hs.tight htight hs'⟩

/-- Texts that follow operators are read as the links of a chain. -/
theorem written_links {es : List α} (sep : α → Token) (op : α → ω) {text : α → String}
    {tree : α → Expr} {Joins : Token → ω → Prop} (h : ∀ x ∈ es, Written d m (text x) (tree x))
    (hsep : ∀ x ∈ es, Spaced d (sep x) ∧ Joins (sep x) (op x)) :
    ∃ links : List (Link ω),
      links.map (fun x => (x.op, x.tree)) = es.map (fun x => (op x, tree x)) ∧
      (∀ x ∈ links, Joins x.sep x.op) ∧ (∀ x ∈ links, Derives d m x.tokens x.tree) ∧
      ∀ {cs ts}, Spells d cs ts →
        Spells d
          (cs ++ es.flatMap fun x => ' ' :: (sep x).spelling.toList ++ ' ' :: (text x).toList)
          (ts ++ linkTokens links) := by
  induction es with
  | nil => exact ⟨[], rfl, by simp, by simp, fun h => by simpa [linkTokens] using h⟩
  | cons x es ih =>
    rw [List.forall_mem_cons] at h hsep
    obtain ⟨links, htrees, hjoins, hderives, hspells⟩ := ih h.2 hsep.2
    obtain ⟨us, hd, hs⟩ := h.1
    refine ⟨⟨⟨us, tree x⟩, sep x, op x⟩ :: links, by simp [htrees], ?_, ?_, fun hcs => ?_⟩
    · exact List.forall_mem_cons.2 ⟨hsep.1.2, hjoins⟩
    · exact List.forall_mem_cons.2 ⟨hd, hderives⟩
    · have hall := hspells (hcs.between hsep.1.1 hs)
      simpa [linkTokens] using hall

theorem toList_intercalate_cons (sep s : String) (texts : List String) :
    (sep.intercalate (s :: texts)).toList =
      s.toList ++ texts.flatMap fun t => sep.toList ++ t.toList := by
  induction texts generalizing s with
  | nil => simp
  | cons t texts ih => simp [String.intercalate_cons_cons, ih]

theorem written_chain {es : List α} {text : α → String} {tree : α → Expr}
    {Joins : Token → BoolOp → Prop}
    (hrule : ∀ {ts e} {links : List (Link BoolOp)}, Derives d m ts e → links ≠ [] →
      (∀ x ∈ links, Joins x.sep x.op) → (∀ x ∈ links, Derives d m x.tokens x.tree) →
      Derives d l (ts ++ linkTokens links) (.logical op (e :: links.map (·.tree)) .zero))
    (ht : Spaced d t) (hj : Joins t op) (hlen : 2 ≤ es.length)
    (h : ∀ x ∈ es, Written d m (text x) (tree x)) :
    Written d l ((" " ++ t.spelling ++ " ").intercalate (es.map text))
      (.logical op (es.map tree) .zero) := by
  obtain ⟨e, es, rfl⟩ := List.exists_cons_of_length_pos (by omega : 0 < es.length)
  rw [List.forall_mem_cons] at h
  obtain ⟨ts, hd, hs⟩ := h.1
  obtain ⟨links, htrees, hjoins, hderives, hspells⟩ :=
    written_links (fun _ => t) (fun _ => op) h.2 fun x hx => ⟨ht, hj⟩
  have htree : links.map (·.tree) = es.map tree := by
    simpa [Function.comp_def] using congrArg (List.map Prod.snd) htrees
  have hne : links ≠ [] := by
    rintro rfl
    obtain rfl : es = [] := by simpa using htree.symm
    simp at hlen
  refine ⟨_, htree ▸ hrule hd hne hjoins hderives, ?_⟩
  rw [List.map_cons, toList_intercalate_cons]
  simpa [List.flatMap_map] using hspells hs

theorem written_comparisons {es : List α} {op : α → CmpOp} {text : α → String} {tree : α → Expr}
    (hfirst : Written d .singleOr s e) (hne : es ≠ [])
    (h : ∀ x ∈ es, Written d .singleOr (text x) (tree x))
    (hu : u.toList = es.flatMap fun x => ' ' :: (op x).symbol.toList ++ ' ' :: (text x).toList) :
    Written d .comparison (s ++ u) (.compare e (es.map fun x => (op x, tree x)) .zero) := by
  have hsep : ∀ x ∈ es, Spaced d (.cmp (op x)) ∧ Compares (.cmp (op x)) (op x) := by
    have hmem : ∀ o, Token.cmp o ∈ symbols d := by
      intro o
      cases d <;> cases o <;> decide
    exact fun x hx => ⟨.inl (hmem _), .cmp⟩
  obtain ⟨ts, hd, hs⟩ := hfirst
  obtain ⟨links, htrees, hjoins, hderives, hspells⟩ := written_links _ _ h hsep
  have hlinks : links ≠ [] := by
    rintro rfl
    exact hne (List.map_eq_nil_iff.1 htrees.symm)
  refine ⟨ts ++ linkTokens links, ?_, ?_⟩
  · rw [← htrees]
    exact .compare hd hlinks hjoins hderives
  · rw [String.toList_append, hu]
    exact hspells hs

theorem written_relation (hl : Written d .sum s l) (hr : Written d .sum t r) :
    Written d .comparison (s ++ " " ++ op.symbol ++ " " ++ t) (.compare l [(op, r)] .zero) := by
  have hoperand : ∀ x ∈ [()], Written d .singleOr t r := fun _ _ => hr.loosen (by decide)
  have hchain := @written_comparisons Unit d s l (" " ++ op.symbol ++ " " ++ t) [()]
    (fun _ => op) _ _ (hl.loosen (by decide)) (by simp) hoperand (by simp)
  simpa [String.append_assoc] using hchain

theorem written_arguments {es : List α} {text : α → String} {tree : α → Expr} (hne : es ≠ [])
    (h : ∀ x ∈ es, Written d .disjunction (text x) (tree x)) :
    ∃ args : List Part, args.map (·.tree) = es.map tree ∧
      (∀ a ∈ args, Derives d .disjunction a.tokens a.tree) ∧
      Spells d (", ".intercalate (es.map text)).toList (argumentTokens false args) := by
  induction es with
  | nil => exact absurd rfl hne
  | cons x es ih =>
    rw [List.forall_mem_cons] at h
    obtain ⟨us, hd, hs⟩ := h.1
    cases es with
    | nil => exact ⟨[⟨us, tree x⟩], rfl, by simpa using hd, by simpa [argumentTokens] using hs⟩
    | cons y es =>
      obtain ⟨args, htrees, hderives, hspells⟩ := ih (by simp) h.2
      obtain ⟨a, args, rfl⟩ : ∃ b bs, args = b :: bs := by
        cases args with
        | nil => simp at htrees
        | cons b bs => exact ⟨b, bs, rfl⟩
      refine ⟨⟨us, tree x⟩ :: a :: args, by simpa using htrees, ?_, ?_⟩
      · exact List.forall_mem_cons.2 ⟨hd, hderives⟩
      · simpa [argumentTokens, String.intercalate_cons_cons] using hs.comma hspells

theorem written_call {es : List α} {text : α → String} {tree : α → Expr} (hf : IsName d f)
    (h : ∀ x ∈ es, Written d .disjunction (text x) (tree x)) :
    Written d .application (f ++ "(" ++ ", ".intercalate (es.map text) ++ ")")
      (.call f (es.map tree) .zero) := by
  cases es with
  | nil =>
    have hcall : Derives d .application
        (.ident f :: .leftParen :: argumentTokens false [] ++ [.rightParen]) _ := .call (by simp)
    exact ⟨_, hcall, by simpa [argumentTokens] using hf.spells.appliedToNone⟩
  | cons x es =>
    obtain ⟨args, htrees, hderives, hspells⟩ := written_arguments (by simp) h
    rw [← htrees]
    exact ⟨_, .call hderives, by simpa using hf.spells.applied hspells⟩

theorem Level.depth_ofPrecedence_mono (h : n ≤ k) :
    (Level.ofPrecedence n).depth ≤ (Level.ofPrecedence k).depth := by
  have hall : ∀ n ≤ 9, ∀ k ≤ 9, n ≤ k →
      (Level.ofPrecedence n).depth ≤ (Level.ofPrecedence k).depth := by decide
  have htop (n : Nat) : Level.ofPrecedence n = Level.ofPrecedence (min n 9) := by
    rcases Nat.lt_or_ge n 9 with hn | hn
    · rw [Nat.min_eq_left (Nat.le_of_lt hn)]
    · rw [Nat.min_eq_right hn]
      obtain ⟨n, rfl⟩ := Nat.exists_eq_add_of_le hn
      simp [Level.ofPrecedence, Nat.add_comm 9 n]
  rw [htop n, htop k]
  exact hall _ (Nat.min_le_right _ _) _ (Nat.min_le_right _ _) (by omega)

/-- Parentheses are left out only if the level says that none are needed. -/
theorem Written.parenthesize (h : Written d l s t)
    (hl : least ≤ e.precedence → (Level.ofPrecedence least).depth ≤ l.depth) :
    Written d (.ofPrecedence least) (parenthesize least e s) t := by
  unfold Formulae.parenthesize
  split
  · exact (h.loosen (Nat.zero_le _)).parens.anywhere _
  · exact h.loosen (hl (by omega))

end Formulae.Grammar
