import Formulae.Proofs.Grammar.Inversion
import Formulae.Proofs.Grammar.Rules
import Formulae.Proofs.Syntax.Names

namespace Formulae

/-- Is the token one of the dialect? The further signs are of rendered texts only. -/
def Token.inDialect : Dialect → Token → Bool
  | .equation, .doubled _ | .equation, .single _ | .equation, .bang => false
  | _, _ => true

end Formulae

namespace Formulae.Grammar
open Outcome
set_option autoImplicit true

/-- All lexemes have tokens of the dialect. -/
def InDialect (d : Dialect) (ls : List Lexeme) : Prop :=
  ∀ x ∈ ls, x.token.inDialect d = true

theorem InDialect.right (h : InDialect d (ls ++ ms)) : InDialect d ms :=
  fun x hx => h x (List.mem_append_right _ hx)

theorem InDialect.head (h : InDialect d (x :: ls)) : x.token.inDialect d = true :=
  h x List.mem_cons_self

theorem InDialect.tail (h : InDialect d (x :: ls)) : InDialect d ls :=
  fun y hy => h y (List.mem_cons_of_mem _ hy)

/-- Whatever the parser takes off the front derives at the level. -/
def Sound (d : Dialect) (l : Level) (p : Parser Expr) : Prop :=
  ∀ ls e rest, InDialect d ls → p ls = .ok (e, rest) →
    ∃ pre, ls = pre ++ rest ∧ Derives d l (pre.map (·.token)) e.eraseSpans

/-- The lexemes are those of some links, which stand for the operators and trees given. -/
structure Links (d : Dialect) (l : Level) (sep? : Token → Option ω) (pre : List Lexeme)
    (more : List (ω × Expr)) (links : List (Link ω)) : Prop where
  tokens : pre.map (·.token) = linkTokens links
  trees : more.map (fun x => (x.1, x.2.eraseSpans)) = links.map fun x => (x.op, x.tree)
  seps : ∀ x ∈ links, sep? x.sep = some x.op ∧ x.sep.inDialect d = true
  derives : ∀ x ∈ links, Derives d l x.tokens x.tree

theorem Links.nil (d : Dialect) (l : Level) (sep? : Token → Option ω) :
    Links d l sep? [] [] [] :=
  ⟨rfl, rfl, by simp, by simp⟩

theorem Links.cons {links : List (Link ω)} (h : Links d l sep? us more links)
    (ht : sep? t.token = some s) (hd : t.token.inDialect d = true)
    (he : Derives d l (ts.map (·.token)) e.eraseSpans) :
    Links d l sep? (t :: ts ++ us) ((s, e) :: more)
      (⟨⟨ts.map (·.token), e.eraseSpans⟩, t.token, s⟩ :: links) where
  tokens := by
    have htok := h.tokens
    simp only [linkTokens] at htok
    simp [linkTokens, htok]
  trees := by simp [h.trees]
  seps := by simpa using ⟨⟨ht, hd⟩, h.seps⟩
  derives := by simpa using ⟨he, h.derives⟩

theorem Links.ne_nil {links : List (Link ω)} (h : Links d l sep? pre more links)
    (hm : more ≠ []) : links ≠ [] := by
  rintro rfl
  have he := h.trees
  simp only [List.map_nil, List.map_eq_nil_iff] at he
  exact hm he

/-- Where nothing is given, nothing is taken off. -/
theorem Links.eq_nil {links : List (Link ω)} (h : Links d l sep? pre [] links) :
    pre = [] ∧ links = [] := by
  obtain rfl : links = [] := List.map_eq_nil_iff.1 h.trees.symm
  exact ⟨List.map_eq_nil_iff.1 h.tokens, rfl⟩

theorem Links.map_tree {links : List (Link ω)} (h : Links d l sep? pre more links) :
    more.map (fun x => x.2.eraseSpans) = links.map (·.tree) := by
  have he := congrArg (List.map Prod.snd) h.trees
  simpa only [List.map_map, Function.comp_def] using he

theorem Sound.chain {sep? : Token → Option ω} (hp : Sound d l p) (hd : InDialect d ls)
    (h : chain sep? p bound ls = .ok (more, rest)) :
    ∃ pre links, ls = pre ++ rest ∧ Links d l sep? pre more links := by
  induction bound generalizing ls more with
  | zero =>
    cases h
    exact ⟨[], [], rfl, .nil _ _ _⟩
  | succ bound ih =>
    rcases chain_eq_ok h with ⟨rfl, rfl⟩ | ⟨t, ts, s, e, ms, more', rfl, hs, he, hm, rfl⟩
    · exact ⟨[], [], rfl, .nil _ _ _⟩
    · obtain ⟨pre, rfl, hpre⟩ := hp _ _ _ hd.tail he
      obtain ⟨us, links, rfl, hl⟩ := ih hd.tail.right hm
      exact ⟨t :: pre ++ us, _, by simp, hl.cons hs hd.head hpre⟩

theorem connectives_sound (hp : Sound d m p) (hlm : l.depth ≤ m.depth)
    (hrule : ∀ {ts e} {links : List (Link BoolOp)}, Derives d m ts e → links ≠ [] →
      (∀ x ∈ links, sep? x.sep = some x.op ∧ x.sep.inDialect d = true) →
      (∀ x ∈ links, Derives d m x.tokens x.tree) →
      Derives d l (ts ++ linkTokens links) (.logical op (e :: links.map (·.tree)) .zero)) :
    Sound d l (connected op sep? bound p) := by
  intro ls e rest hd h
  obtain ⟨first, ms, more, hf, hm, rfl⟩ := connected_eq_ok h
  obtain ⟨pre, rfl, hpre⟩ := hp _ _ _ hd hf
  obtain ⟨us, links, rfl, hl⟩ := hp.chain hd.right hm
  refine ⟨pre ++ us, by simp, ?_⟩
  cases more with
  | nil =>
    obtain ⟨rfl, rfl⟩ := hl.eq_nil
    simpa [joined] using hpre.loosen hlm
  | cons x xs =>
    have hr := hrule hpre (hl.ne_nil (by simp)) hl.seps hl.derives
    simpa [joined, Expr.eraseSpans, hl.tokens, ← hl.map_tree, Function.comp_def] using hr

theorem connective?_eq_some {op : BoolOp} (h : connective? op t = some o)
    (hd : t.inDialect d = true) : Connects d op t o := by
  simp only [connective?, Option.ite_none_right_eq_some, Option.some.injEq] at h
  obtain ⟨rfl | rfl, rfl⟩ := h
  · exact .word
  · apply Connects.doubled
    cases d with
    | equation => cases hd
    | rendered => rfl

theorem single?_eq_some {op : BoolOp} (h : single? op t = some o)
    (hd : t.inDialect d = true) : ConnectsSingly d op t o := by
  simp only [single?, Option.ite_none_right_eq_some, Option.some.injEq] at h
  obtain ⟨rfl, rfl⟩ := h
  apply ConnectsSingly.single
  cases d with
  | equation => cases hd
  | rendered => rfl

theorem comparison?_eq_some (h : comparison? t = some o) : t = .cmp o := by
  cases t <;> simp_all [comparison?]

theorem additive?_eq_some (h : additive? t = some o) : t = .op o ∧ Adds o := by
  unfold additive? at h
  split at h <;> cases h
  · exact ⟨rfl, .add⟩
  · exact ⟨rfl, .sub⟩

theorem multiplicative?_eq_some (h : multiplicative? t = some o) : t = .op o ∧ Multiplies o := by
  unfold multiplicative? at h
  split at h <;> cases h
  · exact ⟨rfl, .mul⟩
  · exact ⟨rfl, .div⟩
  · exact ⟨rfl, .mod⟩

theorem sign?_eq_some (h : sign? t = some o) (hd : t.inDialect d = true) : Signs d t o := by
  unfold sign? at h
  split at h <;> cases h
  · exact .pos
  · exact .neg
  · apply Signs.not
    cases d with
    | equation => cases hd
    | rendered => rfl

theorem Sound.conjunction (hp : Sound d .negation (negation stop p bound)) :
    Sound d .conjunction (Grammar.conjunction stop p bound) :=
  connectives_sound hp (by decide) fun hf hn hs hl =>
    .and hf hn (fun x hx => connective?_eq_some (hs x hx).1 (hs x hx).2) hl

theorem Sound.disjunction (hp : Sound d .conjunction (Grammar.conjunction stop p bound)) :
    Sound d .disjunction (Grammar.disjunction stop p bound) :=
  connectives_sound hp (by decide) fun hf hn hs hl =>
    .or hf hn (fun x hx => connective?_eq_some (hs x hx).1 (hs x hx).2) hl

theorem Sound.bitwise (hp : Sound d .sum (sum stop p bound)) :
    Sound d .singleOr (bitwise stop p bound) := by
  have hand : Sound d .singleAnd (connected .and (single? .and) bound (sum stop p bound)) :=
    connectives_sound hp (by decide) fun hf hn hs hl =>
      .singleAnd hf hn (fun x hx => single?_eq_some (hs x hx).1 (hs x hx).2) hl
  exact connectives_sound hand (by decide) fun hf hn hs hl =>
    .singleOr hf hn (fun x hx => single?_eq_some (hs x hx).1 (hs x hx).2) hl

theorem Links.grouped {links : List (Link BinaryOp)} (h : Links d m op? us more links)
    (hrule : ∀ {ts us e r t op}, op? t = some op → Derives d l ts e → Derives d m us r →
      Derives d l (ts ++ t :: us) (.binary op e r .zero))
    (hfirst : Derives d l ts first.eraseSpans) :
    Derives d l (ts ++ linkTokens links)
      (more.foldl (fun left x => between x.1 left x.2) first).eraseSpans := by
  obtain ⟨-, htrees, hseps, hderives⟩ := h
  induction links generalizing more first ts with
  | nil =>
    obtain rfl : more = [] := by simpa using htrees
    simpa [linkTokens] using hfirst
  | cons x links ih =>
    obtain ⟨⟨op, r⟩, more, rfl⟩ : ∃ y ys, more = y :: ys := by
      cases more with
      | nil => simp at htrees
      | cons y ys => exact ⟨y, ys, rfl⟩
    simp only [List.map_cons, List.cons.injEq, Prod.mk.injEq] at htrees
    obtain ⟨⟨rfl, hr⟩, htrees⟩ := htrees
    rw [List.forall_mem_cons] at hseps hderives
    have hnext : Derives d l (ts ++ x.sep :: x.tokens) (between x.op first r).eraseSpans := by
      have hr' := hrule hseps.1.1 hfirst hderives.1
      rwa [← hr] at hr'
    simpa [linkTokens] using ih hnext htrees hseps.2 hderives.2

theorem leftGrouped_sound (hp : Sound d m p) (hlm : l.depth ≤ m.depth)
    (hrule : ∀ {ts us e r t op}, op? t = some op → Derives d l ts e → Derives d m us r →
      Derives d l (ts ++ t :: us) (.binary op e r .zero)) :
    Sound d l (leftGrouped op? bound p) := by
  intro ls e rest hd h
  obtain ⟨first, ms, more, hf, hm, rfl⟩ := leftGrouped_eq_ok h
  obtain ⟨pre, rfl, hpre⟩ := hp _ _ _ hd hf
  obtain ⟨us, links, rfl, hl⟩ := hp.chain hd.right hm
  refine ⟨pre ++ us, by simp, ?_⟩
  rw [List.map_append, hl.tokens]
  exact hl.grouped hrule (hpre.loosen hlm)

theorem Sound.term (hp : Sound d .factor (factor stop p bound)) :
    Sound d .term (Grammar.term stop p bound) :=
  leftGrouped_sound hp (by decide) fun ht hl hr => by
    obtain ⟨rfl, hop⟩ := multiplicative?_eq_some ht
    exact .term hop hl hr

theorem Sound.sum (hp : Sound d .term (Grammar.term stop p bound)) :
    Sound d .sum (Grammar.sum stop p bound) :=
  leftGrouped_sound hp (by decide) fun ht hl hr => by
    obtain ⟨rfl, hop⟩ := additive?_eq_some ht
    exact .sum hop hl hr

theorem Sound.factor (hp : Sound d .application p) :
    Sound d .factor (Grammar.factor stop p bound) := by
  induction bound with
  | zero =>
    intro ls e rest hd h
    cases h
  | succ bound ih =>
    intro ls e rest hd h
    rcases factor_eq_ok h with ⟨l, ms, op, operand, rfl, hop, ho, rfl⟩ | ⟨base, ms, hb, hrest⟩
    · obtain ⟨pre, rfl, hpre⟩ := ih _ _ _ hd.tail ho
      exact ⟨l :: pre, rfl, .sign (sign?_eq_some hop hd.head) hpre⟩
    · obtain ⟨pre, rfl, hbase⟩ := hp _ _ _ hd hb
      rcases hrest with ⟨rfl, rfl⟩ | ⟨m, ms', exponent, rfl, hm, he, rfl⟩
      · exact ⟨pre, rfl, hbase.loosen (by decide)⟩
      · obtain ⟨us, rfl, hexp⟩ := ih _ _ _ hd.right.tail he
        refine ⟨pre ++ m :: us, by simp, ?_⟩
        rw [List.map_append, List.map_cons, hm]
        exact .operand rfl (.power hbase hexp)

theorem Sound.comparison (hp : Sound d .singleOr (Grammar.bitwise stop p bound)) :
    Sound d .comparison (Grammar.comparison stop p bound) := by
  intro ls e rest hd h
  obtain ⟨first, ms, more, hf, hm, rfl⟩ := comparison_eq_ok h
  obtain ⟨pre, rfl, hpre⟩ := hp _ _ _ hd hf
  obtain ⟨us, links, rfl, hl⟩ := hp.chain hd.right hm
  refine ⟨pre ++ us, by simp, ?_⟩
  cases more with
  | nil =>
    obtain ⟨rfl, rfl⟩ := hl.eq_nil
    simpa [compared] using hpre.loosen (by decide)
  | cons x xs =>
    have hc : ∀ x ∈ links, Compares x.sep x.op := fun x hx => by
      rw [comparison?_eq_some (hl.seps x hx).1]
      exact .cmp
    have hr := Derives.compare hpre (hl.ne_nil (by simp)) hc hl.derives
    rw [← hl.trees] at hr
    simpa [compared, Expr.eraseSpans, hl.tokens] using hr

theorem Sound.negation (hp : Sound d .comparison (Grammar.comparison stop p bound)) :
    Sound d .negation (Grammar.negation stop p bound) := by
  intro ls
  induction ls with
  | nil =>
    intro e rest hd h
    obtain ⟨pre, hpre, he⟩ := hp _ _ _ hd h
    exact ⟨pre, hpre, he.loosen (by decide)⟩
  | cons l ls ih =>
    intro e rest hd h
    rcases negation_eq_ok h with h | ⟨t, ts, operand, hls, ht, ho, rfl⟩
    · obtain ⟨pre, hpre, he⟩ := hp _ _ _ hd h
      exact ⟨pre, hpre, he.loosen (by decide)⟩
    · obtain ⟨rfl, rfl⟩ := List.cons.inj hls
      obtain ⟨pre, rfl, hpre⟩ := ih _ _ hd.tail ho
      refine ⟨l :: pre, rfl, ?_⟩
      rw [List.map_cons, ht]
      exact .not hpre

theorem arguments_sound (hp : Sound d .disjunction p) (hd : InDialect d ls)
    (h : arguments stop p bound ls = .ok (es, rest)) :
    ∃ pre args trailing, ls = pre ++ rest ∧ pre.map (·.token) = argumentTokens trailing args ∧
      es.map (·.eraseSpans) = args.map (·.tree) ∧
      ∀ a ∈ args, Derives d .disjunction a.tokens a.tree := by
  induction bound generalizing ls es with
  | zero =>
    cases h
    exact ⟨[], [], false, rfl, rfl, rfl, by simp⟩
  | succ bound ih =>
    rcases arguments_eq_ok h with ⟨rfl, rfl⟩ | ⟨e, ms, he, hrest⟩
    · exact ⟨[], [], false, rfl, rfl, rfl, by simp⟩
    · obtain ⟨pre, rfl, hpre⟩ := hp _ _ _ hd he
      rcases hrest with ⟨rfl, rfl⟩ | ⟨m, ms', es', rfl, hm, hes, rfl⟩
      · exact ⟨pre, [⟨pre.map (·.token), e.eraseSpans⟩], false, rfl, rfl, rfl, by simpa using hpre⟩
      · obtain ⟨us, args, trailing, rfl, hus, htrees, hargs⟩ := ih hd.right.tail hes
        have hall : ∀ a ∈ ⟨pre.map (·.token), e.eraseSpans⟩ :: args,
            Derives d .disjunction a.tokens a.tree := by simpa using ⟨hpre, hargs⟩
        cases args with
        | nil =>
          refine ⟨pre ++ m :: us, _, true, by simp, ?_, ?_, hall⟩
          · simp [argumentTokens, hus, hm]
          · simp [htrees]
        | cons b bs =>
          refine ⟨pre ++ m :: us, _, trailing, by simp, ?_, ?_, hall⟩
          · simp [argumentTokens, hus, hm]
          · simp [htrees]

theorem Sound.atom (hp : Sound d .disjunction p) : Sound d .atom (Grammar.atom stop p) := by
  intro ls e rest hd h
  obtain ⟨l, ms, rfl, hcases⟩ := atom_eq_ok h
  rcases hcases with ⟨s, n, hl, hn, rfl, rfl⟩ | ⟨x, hl, rfl, rfl⟩ | ⟨b, hl, rfl, rfl⟩ |
    ⟨m, hl, he, hm⟩
  · refine ⟨[l], rfl, ?_⟩
    rw [List.map_singleton, hl]
    exact .number hn
  · refine ⟨[l], rfl, ?_⟩
    rw [List.map_singleton, hl]
    exact .var
  · refine ⟨[l], rfl, ?_⟩
    rw [List.map_singleton, hl]
    exact .truth
  · obtain ⟨pre, rfl, hpre⟩ := hp _ _ _ hd.tail he
    refine ⟨l :: pre ++ [m], by simp, ?_⟩
    rw [List.map_append, List.map_cons, List.map_singleton, hl, hm]
    exact .parens hpre

theorem Sound.primary (hp : Sound d .disjunction p) :
    Sound d .application (Grammar.primary stop p bound) := by
  intro ls e rest hd h
  rcases primary_eq_ok h with h | ⟨l, l', ms, f, es, m, rfl, hl, hl', hes, hm, rfl⟩
  · obtain ⟨pre, rfl, hpre⟩ := hp.atom _ _ _ hd h
    exact ⟨pre, rfl, .operand rfl hpre⟩
  · obtain ⟨pre, args, trailing, rfl, hpre, htrees, hargs⟩ := arguments_sound hp hd.tail.tail hes
    refine ⟨l :: l' :: pre ++ [m], by simp, ?_⟩
    have hcall : Derives d .application
        (.ident f :: .leftParen :: argumentTokens trailing args ++ [.rightParen]) _ := .call hargs
    simpa [Expr.eraseSpans, htrees, hpre, hl, hl', hm] using hcall

theorem expression_sound (d : Dialect) (stop bound : Nat) :
    Sound d .disjunction (expression stop bound) := by
  induction bound with
  | zero =>
    intro ls e rest hd h
    cases h
  | succ bound ih =>
    intro ls e rest hd h
    have hlevels : Sound d .disjunction
        (disjunction stop (primary stop (expression stop bound) (bound + 1)) (bound + 1)) :=
      ih.primary.factor.term.sum.bitwise.comparison.negation.conjunction.disjunction
    unfold expression at h
    split at h
    · cases h
    · exact hlevels _ _ _ hd h

theorem wholeExpression_sound (hd : InDialect d ls) (h : wholeExpression stop ls = .ok e) :
    Derives d .disjunction (ls.map (·.token)) e.eraseSpans := by
  obtain ⟨pre, hpre, hder⟩ := expression_sound _ _ _ _ _ _ hd (wholeExpression_eq_ok h)
  rw [List.append_nil] at hpre
  rwa [hpre]

end Formulae.Grammar
