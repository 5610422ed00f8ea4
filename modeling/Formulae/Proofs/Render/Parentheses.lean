import Formulae.Proofs.Render.Plain
import Mathlib.Algebra.Order.BigOperators.Group.List
import Mathlib.Algebra.Order.Group.Nat

namespace Formulae
open Grammar Outcome
set_option autoImplicit true

/-- The number of opening parentheses in a text. -/
def openings (cs : List Char) : Nat :=
  cs.count '('

@[simp] theorem openings_append (cs ds : List Char) :
    openings (cs ++ ds) = openings cs + openings ds :=
  List.count_append

@[simp] theorem openings_cons (c : Char) (cs : List Char) :
    openings (c :: cs) = openings cs + if c = '(' then 1 else 0 := by
  simp [openings, List.count_cons]

theorem openings_flatMap_le {f g : α → List Char} {xs : List α}
    (h : ∀ x ∈ xs, openings (f x) ≤ openings (g x)) :
    openings (xs.flatMap f) ≤ openings (xs.flatMap g) := by
  simp only [openings, List.count_flatMap]
  exact List.sum_le_sum h

/-- The characters of some tokens. Those of names and numbers are among them, so that nothing has to
be known of these to compare the parentheses of two texts. -/
def spelled (ts : List Token) : List Char :=
  ts.flatMap fun t => t.spelling.toList

@[simp] theorem spelled_nil : spelled [] = [] :=
  rfl

@[simp] theorem spelled_cons (t : Token) (ts : List Token) :
    spelled (t :: ts) = t.spelling.toList ++ spelled ts :=
  rfl

@[simp] theorem spelled_append (ts us : List Token) :
    spelled (ts ++ us) = spelled ts ++ spelled us :=
  List.flatMap_append

namespace Expr

@[simp] theorem precedence_eraseSpans (e : Expr) : e.eraseSpans.precedence = e.precedence := by
  cases e with
  | unary op => cases op <;> rfl
  | _ => rfl

theorem parenthesize_eraseSpans (least : Nat) (e : Expr) (s : String) :
    parenthesize least e.eraseSpans s = parenthesize least e s := by
  simp only [parenthesize, precedence_eraseSpans]

@[simp] theorem text_eraseSpans (e : Expr) : e.eraseSpans.text = e.text := by
  induction e using Expr.induct with
  | number | bool | var => rfl
  | call f args sp ih =>
    have hargs : args.map (text ∘ eraseSpans) = args.map text := List.map_congr_left ih
    simp only [eraseSpans, text, eraseSpansOfList_eq, argumentTexts_eq, List.map_map, hargs]
  | unary op e sp ih => simp only [eraseSpans, text, ih, parenthesize_eraseSpans]
  | binary op l r sp ihl ihr => simp only [eraseSpans, text, ihl, ihr, parenthesize_eraseSpans]
  | compare e rest sp ihe ihr =>
    simp only [eraseSpans, text, ihe, parenthesize_eraseSpans, eraseSpansOfRest_eq]
    congr 1
    rw [← String.toList_inj, comparisonTexts_toList, comparisonTexts_toList, List.flatMap_map]
    apply List.flatMap_congr
    intro x hx
    simp only [ihr x hx, parenthesize_eraseSpans]
  | logical op es sp ih =>
    simp only [eraseSpans, text, operandTexts_eq, eraseSpansOfList_eq, List.map_map]
    congr 1
    apply List.map_congr_left
    intro e he
    simp only [Function.comp_apply, ih e he, parenthesize_eraseSpans]

end Expr

/-- How tightly a tree has to bind to be read at the level without parentheses. This is what the
plain text asks of an operand that the grammar reads at the level. -/
def Grammar.Level.least : Level → Nat
  | disjunction => 0
  | conjunction => 2
  | negation => 3
  | comparison => 4
  | singleOr | singleAnd | sum => 5
  | term => 6
  | factor => 7
  | power => 8
  | application | atom => 9

theorem Grammar.Level.least_mono {l m : Level} (h : l.operand? = some m) : l.least ≤ m.least := by
  cases l <;> cases h <;> decide

theorem openings_parenthesize (least : Nat) (e : Expr) (s : String) :
    openings (parenthesize least e s).toList =
      openings s.toList + if e.precedence < least then 1 else 0 := by
  unfold parenthesize
  split
  · simp [openings]
  · rfl

/-- What binds tightly enough for a level has no parentheses of its own there. -/
theorem openings_text_le_of_binds (hp : least ≤ e.precedence) (h : openings e.text.toList ≤ n) :
    openings (parenthesize least e e.text).toList ≤ n := by
  rwa [openings_parenthesize, if_neg (Nat.not_lt.2 hp)]

theorem openings_links_le {links : List (Link ω)} {f : Link ω → List Char}
    (h : ∀ x ∈ links, openings (f x) ≤ openings (spelled x.tokens)) :
    openings (links.flatMap f) ≤ openings (spelled (linkTokens links)) := by
  rw [spelled, linkTokens, List.flatMap_assoc]
  apply openings_flatMap_le
  intro x hx
  rw [List.flatMap_cons, openings_append]
  exact Nat.le_add_left_of_le (h x hx)

theorem openings_chain_le {links : List (Link ω)} {sep : String}
    (hsep : openings sep.toList = 0) (h : openings (f e).toList ≤ openings (spelled ts))
    (hl : ∀ x ∈ links, openings (f x.tree).toList ≤ openings (spelled x.tokens)) :
    openings (sep.intercalate ((e :: links.map (·.tree)).map f)).toList ≤
      openings (spelled (ts ++ linkTokens links)) := by
  rw [List.map_cons, toList_intercalate_cons, List.map_map, List.flatMap_map, spelled_append,
    openings_append, openings_append]
  apply Nat.add_le_add h
  apply openings_links_le
  intro x hx
  rw [openings_append, hsep, Nat.zero_add]
  exact hl x hx

theorem openings_arguments_le {args : List Part}
    (h : ∀ a ∈ args, openings a.tree.text.toList ≤ openings (spelled a.tokens)) :
    openings (", ".intercalate (args.map (·.tree.text))).toList ≤
      openings (spelled (argumentTokens trailing args)) := by
  fun_induction argumentTokens trailing args with
  | case1 => exact Nat.zero_le _
  | case2 a =>
    rw [spelled_append, openings_append]
    exact Nat.le_add_right_of_le (by simpa using h a List.mem_cons_self)
  | case3 a => simpa using h a List.mem_cons_self
  | case4 a b as ih =>
    rw [List.forall_mem_cons] at h
    have hall := Nat.add_le_add h.1 (ih h.2)
    simpa [String.intercalate_cons_cons, Token.spelling] using hall

theorem openings_binary_le (hp : least ≤ op.precedence)
    (hl : openings (parenthesize op.leftLevel l l.text).toList ≤ openings (spelled ts))
    (hr : openings (parenthesize op.rightLevel r r.text).toList ≤ openings (spelled us)) :
    openings (parenthesize least (.binary op l r sp) (Expr.binary op l r sp).text).toList ≤
      openings (spelled (ts ++ .op op :: us)) := by
  apply openings_text_le_of_binds hp
  simp only [Expr.text, String.toList_append, spelled_append, spelled_cons, openings_append,
    Token.spelling]
  have hblank : openings " ".toList = 0 := by decide +kernel
  omega

theorem Grammar.not_connectsSingly (h : ConnectsSingly .equation op t o) : False := by
  cases h with
  | single hd => cases hd

/-- Whatever is read as a tree in an equation has the parentheses of its plain text. -/
theorem Grammar.Derives.openings_text_le (h : Derives .equation l ts e) :
    openings (parenthesize l.least e e.text).toList ≤ openings (spelled ts) := by
  induction h with
  | @operand l m ts e hm _ ih =>
    have hle := Level.least_mono hm
    -- a tighter level asks for parentheses wherever a looser one does
    rw [openings_parenthesize] at ih ⊢
    split_ifs at ih ⊢ <;> omega
  | or _ _ _ _ ih ihl =>
    apply openings_text_le_of_binds (Nat.zero_le _)
    rw [Expr.text, Expr.operandTexts_eq]
    exact openings_chain_le (by decide +kernel) ih ihl
  | and _ _ _ _ ih ihl =>
    apply openings_text_le_of_binds (Nat.le_refl 2)
    rw [Expr.text, Expr.operandTexts_eq]
    exact openings_chain_le (by decide +kernel) ih ihl
  | not _ ih =>
    apply openings_text_le_of_binds (Nat.le_refl 3)
    rw [Expr.text, String.toList_append, openings_append, spelled_cons, openings_append]
    exact Nat.add_le_add (by decide +kernel) ih
  | compare _ _ _ _ ih ihl =>
    apply openings_text_le_of_binds (Nat.le_refl 4)
    rw [Expr.text, String.toList_append, Expr.comparisonTexts_toList, List.flatMap_map,
      openings_append, spelled_append, openings_append]
    apply Nat.add_le_add ih
    apply openings_links_le
    intro x hx
    have hsymbol : openings x.op.symbol.toList = 0 := by cases x.op <;> decide +kernel
    have hoperand : openings (parenthesize CmpOp.operandLevel x.tree x.tree.text).toList ≤
        openings (spelled x.tokens) := ihl x hx
    simpa [hsymbol] using hoperand
  | singleOr _ hne hsep =>
    obtain ⟨x, hx⟩ := List.exists_mem_of_ne_nil _ hne
    exact (not_connectsSingly (hsep x hx)).elim
  | singleAnd _ hne hsep =>
    obtain ⟨x, hx⟩ := List.exists_mem_of_ne_nil _ hne
    exact (not_connectsSingly (hsep x hx)).elim
  | sum hop _ _ ihl ihr =>
    cases hop <;> exact openings_binary_le (Nat.le_refl 5) ihl ihr
  | term hop _ _ ihl ihr =>
    cases hop <;> exact openings_binary_le (Nat.le_refl 6) ihl ihr
  | power _ _ ihl ihr => exact openings_binary_le (Nat.le_refl 8) ihl ihr
  | sign hop _ ih =>
    cases hop with
    | pos | neg =>
      apply openings_text_le_of_binds (Nat.le_refl 7)
      rw [Expr.text, String.toList_append, openings_append, spelled_cons, openings_append]
      exact Nat.add_le_add_left ih _
    | not hd => cases hd
  | @call trailing f args _ ih =>
    apply openings_text_le_of_binds (Nat.le_refl 9)
    have hargs : openings (", ".intercalate (args.map (·.tree.text))).toList ≤
        openings (spelled (argumentTokens trailing args)) :=
      openings_arguments_le ih
    rw [Expr.text, Expr.argumentTexts_eq, List.map_map]
    simpa [Token.spelling, Function.comp_def, Nat.add_comm, Nat.add_left_comm] using hargs
  | number | var =>
    apply openings_text_le_of_binds (Nat.le_refl 9)
    simp [Expr.text, Token.spelling]
  | @truth b =>
    apply openings_text_le_of_binds (Nat.le_refl 9)
    cases b <;> decide +kernel
  | @parens ts e _ ih =>
    rw [openings_parenthesize] at ih ⊢
    have hparens : openings (spelled (.leftParen :: ts ++ [.rightParen])) =
        openings (spelled ts) + 1 := by
      simp [Token.spelling, openings]
    rw [hparens]
    split_ifs at ih ⊢ <;> omega

/-- The equation is read as the expression, but for the spans. -/
def Expr.ReadFrom (s : String) (e : Expr) : Prop :=
  (Expr.parse .equation s).map eraseSpans = .ok e.eraseSpans

theorem Expr.ReadFrom.openings_le {s : String} (h : Expr.ReadFrom s e) :
    openings e.text.toList ≤ openings s.toList := by
  obtain ⟨e', hparse, he⟩ := map_eq_ok.1 h
  obtain ⟨ls, hls, hread⟩ := bind_eq_ok.1 hparse
  have hder := wholeExpression_sound (fun x hx => (Token.lexemes_scanned hls hx).inDialect) hread
  calc openings e.text.toList
    _ = openings e'.eraseSpans.text.toList := by rw [he, text_eraseSpans]
    _ ≤ openings (spelled (ls.map (·.token))) := hder.openings_text_le
    _ ≤ openings s.toList := by
      rw [spelled, List.flatMap_map]
      exact (Token.spellings_sublist hls).count_le _

/-- Of all the texts that are read as an expression its plain text has the fewest parentheses.
Without one pair of them, even if it is that of a call, it is not read as the expression. -/
theorem plain_text_has_fewest_parentheses {source : String}
    (h : Expr.parse .equation source = .ok e) :
    e.ReadFrom e.text ∧ (∀ s, e.ReadFrom s → openings e.text.toList ≤ openings s.toList) ∧
      ∀ before inside after, e.text.toList = before ++ '(' :: inside ++ ')' :: after →
        ¬ e.ReadFrom (.ofList (before ++ inside ++ after)) := by
  refine ⟨(Expr.legible_of_parse h).written_text.parse, fun s hs => hs.openings_le, ?_⟩
  intro before inside after htext hread
  have hle := hread.openings_le
  rw [htext, String.toList_ofList] at hle
  simp only [openings_append, openings_cons, reduceIte, Char.reduceEq] at hle
  omega

/-- Without its parentheses a disjunction below a sign is read as one of a sign. -/
theorem plain_text_has_fewest_parentheses_signed :
    ∃ e, Expr.parse .equation "-((a) or b)**-(c) < (not d)" = .ok e ∧
      e.text = "-(a or b) ** -c < (not d)" ∧
      openings e.text.toList ≤ openings "-((a) or b)**-(c) < (not d)".toList ∧
      (Expr.parse .equation "-a or b ** -c < (not d)").isOk = true ∧
      ¬ e.ReadFrom "-a or b ** -c < (not d)" := by
  have hread : (Expr.parse .equation "-((a) or b)**-(c) < (not d)").map Expr.text =
      .ok "-(a or b) ** -c < (not d)" := by
    decide +kernel
  have hother : (Expr.parse .equation "-a or b ** -c < (not d)").isOk = true := by
    decide +kernel
  have hwithout : String.ofList ("-".toList ++ "a or b".toList ++ " ** -c < (not d)".toList) =
      "-a or b ** -c < (not d)" := by
    decide +kernel
  obtain ⟨e, he, htext⟩ := map_eq_ok.1 hread
  obtain ⟨-, hfewest, hneeded⟩ := plain_text_has_fewest_parentheses he
  refine ⟨e, he, htext, hfewest _ (by rw [Expr.ReadFrom, he]; rfl), hother, ?_⟩
  rw [← hwithout]
  apply hneeded
  rw [htext]
  decide +kernel

end Formulae
