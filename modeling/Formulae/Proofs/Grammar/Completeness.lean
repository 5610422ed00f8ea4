import Formulae.Proofs.Grammar.Chains
import Formulae.Proofs.Grammar.Inversion

namespace Formulae.Grammar
open Outcome
set_option autoImplicit true

theorem Accepts.conjunction (hp : Accepts d .negation bound (negation stop p bound)) :
    Accepts d .conjunction bound (Grammar.conjunction stop p bound) := by
  apply connected_accepts hp Derives.and_chain _
    (fun t ht => connective?_eq_none (Nat.lt_succ_of_le ht)) (by decide)
  intro t o h
  exact ⟨h.connective?, h.closing_le⟩

theorem Accepts.disjunction (hp : Accepts d .conjunction bound (Grammar.conjunction stop p bound)) :
    Accepts d .disjunction bound (Grammar.disjunction stop p bound) := by
  apply connected_accepts hp Derives.or_chain _
    (fun t ht => connective?_eq_none (Nat.lt_succ_of_le ht)) (by decide)
  intro t o h
  exact ⟨h.connective?, h.closing_le⟩

theorem Accepts.bitwise (hp : Accepts d .sum bound (sum stop p bound)) :
    Accepts d .singleOr bound (bitwise stop p bound) := by
  have hand : Accepts d .singleAnd bound
      (connected .and (single? .and) bound (sum stop p bound)) := by
    apply connected_accepts hp Derives.singleAnd_chain _
      (fun t ht => single?_eq_none (Nat.lt_succ_of_le ht)) (by decide)
    intro t o h
    exact ⟨h.single?, h.closing_le⟩
  apply connected_accepts hand Derives.singleOr_chain _
    (fun t ht => single?_eq_none (Nat.lt_succ_of_le ht)) (by decide)
  intro t o h
  exact ⟨h.single?, h.closing_le⟩

theorem Accepts.sum (hp : Accepts d .term bound (term stop p bound)) :
    Accepts d .sum bound (Grammar.sum stop p bound) := by
  apply leftGrouped_accepts hp Derives.sum_chain _ (fun t ht => additive?_eq_none ht) (by decide)
  rintro t o ⟨rfl, ho⟩
  cases ho <;> exact ⟨rfl, by decide⟩

theorem Accepts.term (hp : Accepts d .factor bound (factor stop p bound)) :
    Accepts d .term bound (Grammar.term stop p bound) := by
  apply leftGrouped_accepts hp Derives.term_chain _ (fun t ht => multiplicative?_eq_none ht)
    (by decide)
  rintro t o ⟨rfl, ho⟩
  cases ho <;> exact ⟨rfl, by decide⟩

theorem factor_read {t : Lexeme} (ht : sign? t.token = none)
    (hb : p (t :: ls) = .ok (base, rest)) (hends : Ends .factor rest) (n : Nat) :
    Grammar.factor stop p (n + 1) (t :: ls) = .ok (base, rest) := by
  simp only [Grammar.factor, ht, hb, ok_bind]
  split
  · exact absurd (hends _ rfl) (by simp [Token.closing, Level.depth])
  · rfl

theorem factor_read_power {t : Lexeme} (ht : sign? t.token = none)
    (hb : p (t :: ls) = .ok (base, ⟨start, close, .op .pow⟩ :: ms)) {n : Nat}
    (he : Grammar.factor stop p n ms = .ok (exponent, rest)) :
    Grammar.factor stop p (n + 1) (t :: ls) = .ok (between .pow base exponent, rest) := by
  simp only [Grammar.factor, ht, hb, he, ok_bind]
  rfl

/-- As many signs and exponents are read as there are lexemes. -/
theorem Accepts.factor (hp : Accepts d .application bound p) :
    Accepts d .factor bound (Grammar.factor stop p bound) := by
  -- The operands keep their bound while the bound on signs and exponents goes down.
  suffices h : ∀ n ls rest e, Derives d .factor (ls.map (·.token)) e → ls.length < bound →
      ls.length < n → Ends .factor rest →
      ∃ e', Grammar.factor stop p n (ls ++ rest) = .ok (e', rest) ∧ e'.eraseSpans = e from
    fun ls rest e he hlen hends => h bound ls rest e he hlen hlen hends
  intro n
  induction n with
  | zero => intro ls rest e _ _ hn _; omega
  | succ n ih =>
    intro ls rest e he hlen hn hends
    generalize hts : ls.map (·.token) = ts at he
    cases he with
    | sign hs he =>
      obtain ⟨t, ls, rfl, rfl, rfl⟩ := List.map_eq_cons_iff.1 hts
      simp only [List.length_cons] at hlen hn
      obtain ⟨e', hread, rfl⟩ := ih ls rest _ he (by omega) (by omega) hends
      refine ⟨.unary _ e' ⟨t.span.start, e'.span.stop⟩, ?_, rfl⟩
      simp only [List.cons_append, Grammar.factor, hs.sign?, hread, ok_bind]
      rfl
    | operand hm he =>
      cases hm
      cases he with
      | operand hm he =>
        cases hm
        subst hts
        obtain ⟨e', hread, rfl⟩ := hp ls rest _ he hlen (hends.tighten (by decide))
        obtain ⟨t, ls, rfl, ht⟩ := he.not_sign
        exact ⟨e', factor_read ht hread hends n, rfl⟩
      | power hl hr =>
        obtain ⟨ls, ms, rfl, rfl, hms⟩ := List.map_eq_append_iff.1 hts
        obtain ⟨⟨start, close, tok⟩, ms, rfl, rfl, rfl⟩ := List.map_eq_cons_iff.1 hms
        simp only [List.length_cons, List.length_append] at hlen hn
        obtain ⟨base, hbase, rfl⟩ := hp ls (⟨start, close, .op .pow⟩ :: (ms ++ rest)) _ hl
          (by omega) (.cons (by simp [Token.closing, Level.depth]))
        obtain ⟨exponent, hexp, rfl⟩ := ih ms rest _ hr (by omega) (by omega) hends
        obtain ⟨t, ls, rfl, ht⟩ := hl.not_sign
        refine ⟨between .pow base exponent, ?_, rfl⟩
        simpa using factor_read_power ht hbase hexp

theorem Accepts.comparison (hp : Accepts d .singleOr bound (Grammar.bitwise stop p bound)) :
    Accepts d .comparison bound (Grammar.comparison stop p bound) := by
  intro ls rest e he hlen hends
  obtain ⟨first, links, hc, rfl⟩ := he.compare_chain
  have hsep : ∀ t o, Compares t o → Grammar.comparison? t = some o ∧
      t.closing ≤ Level.singleOr.depth := by
    intro t o h
    refine ⟨h.comparison?, ?_⟩
    cases h
    exact Nat.le_refl 4
  obtain ⟨e, ms, more, hfirst, hmore, rfl, htrees⟩ := hc.read (l := .comparison) hp hsep
    (fun t ht => comparison?_eq_none ht) (by decide) hlen hends
  refine ⟨compared e more, ?_, ?_⟩
  · simp only [Grammar.comparison, hfirst, hmore, ok_bind]
    split
    · exact absurd (hends _ rfl) (by simp [Token.closing, Level.depth])
    · rfl
  · cases more with
    | nil =>
      obtain rfl : links = [] := by simpa using htrees.symm
      rfl
    | cons x xs =>
      have hne : links ≠ [] := by
        rintro rfl
        simp at htrees
      rw [if_neg hne, ← htrees]
      simp [compared, Expr.eraseSpans]

theorem Accepts.negation (hp : Accepts d .comparison bound (Grammar.comparison stop p bound)) :
    Accepts d .negation bound (Grammar.negation stop p bound) := by
  intro ls
  induction ls with
  | nil =>
    intro rest e he
    obtain ⟨t, us, hts, -⟩ := he.opens
    cases hts
  | cons t ls ih =>
    intro rest e he hlen hends
    rw [List.length_cons] at hlen
    generalize hts : (t :: ls).map (·.token) = ts at he
    cases he with
    | operand hm he =>
      cases hm
      subst hts
      obtain ⟨e', hread, rfl⟩ := hp (t :: ls) rest e he (by simpa using hlen)
        (hends.tighten (by decide))
      obtain ⟨t', ls', ht', hne⟩ := he.not_notWord
      cases ht'
      refine ⟨e', ?_, rfl⟩
      rw [List.cons_append, Grammar.negation]
      split
      · contradiction
      · exact hread
    | not he =>
      simp only [List.map_cons, List.cons.injEq] at hts
      obtain ⟨ht, rfl⟩ := hts
      obtain ⟨e', hread, rfl⟩ := ih rest _ he (by omega) hends
      refine ⟨.unary .not e' ⟨t.span.start, e'.span.stop⟩, ?_, rfl⟩
      simp only [List.cons_append, Grammar.negation, ht, hread, ok_bind]
      rfl

def EndsArgument (t : Lexeme) : Prop :=
  t.token = .comma ∨ t.token = .rightParen

/-- An argument is neither empty nor starred nor named. -/
theorem arguments_read {t : Lexeme} (hder : Derives d .disjunction (ms.map (·.token)) tree)
    (ht : EndsArgument t) (hread : p (ms ++ t :: rest) = .ok (e, t :: rest)) (stop n : Nat) :
    (t.token = .comma → arguments stop p (n + 1) (ms ++ t :: rest) =
      (arguments stop p n rest).map fun x => (e :: x.1, x.2)) ∧
    (t.token = .rightParen →
      arguments stop p (n + 1) (ms ++ t :: rest) = .ok ([e], t :: rest)) := by
  obtain ⟨⟨start, close, tok⟩, ms, rfl, hu⟩ := hder.exists_cons
  have husable := hder.usable
  have hfirst {tok' : Token} (h : tok'.opening = 0) : tok ≠ tok' := by
    rintro rfl
    exact absurd hu (by simp [h])
  simp only [List.cons_append, arguments]
  split
  · next h =>
    simp only [List.cons.injEq, Lexeme.mk.injEq] at h
    exact absurd h.1.2.2 (hfirst rfl)
  · next h =>
    simp only [List.cons.injEq, Lexeme.mk.injEq] at h
    exact absurd h.1.2.2 (hfirst rfl)
  · next h =>
    simp only [List.cons.injEq, Lexeme.mk.injEq] at h
    exact absurd h.1.2.2 (hfirst rfl)
  · next h =>
    simp only [List.cons.injEq] at h
    cases ms with
    | nil =>
      cases h.2
      rcases ht with ht | ht <;> cases ht
    | cons m ms =>
      cases h.2
      have hm := husable (.assign .set) (by simp)
      rcases hm with hm | hm <;> exact absurd hm (by decide)
  · rw [List.cons_append] at hread
    rw [hread, ok_bind]
    obtain ⟨start', close', tok'⟩ := t
    constructor
    · rintro rfl
      dsimp only
      cases arguments stop p n rest <;> rfl
    · rintro rfl
      rfl

theorem Accepts.arguments {args : List Part} {close : Lexeme} (hp : Accepts d .disjunction bound p)
    (hargs : ∀ a ∈ args, Derives d .disjunction a.tokens a.tree)
    (hls : ls.map (·.token) = argumentTokens trailing args) (hn : ls.length ≤ n)
    (hb : ls.length < bound) (hclose : close.token = .rightParen) (stop : Nat)
    (rest : List Lexeme) :
    ∃ es, Grammar.arguments stop p n (ls ++ close :: rest) = .ok (es, close :: rest) ∧
      es.map (·.eraseSpans) = args.map (·.tree) := by
  have hnone (n : Nat) :
      Grammar.arguments stop p n (close :: rest) = .ok ([], close :: rest) := by
    obtain ⟨start, stop', tok⟩ := close
    cases hclose
    cases n <;> rfl
  have hends : Ends .disjunction (close :: rest) := .cons (by rw [hclose]; decide)
  fun_induction argumentTokens trailing args generalizing ls n with
  | case1 =>
    obtain rfl : ls = [] := by simpa using hls
    exact ⟨[], hnone n, rfl⟩
  | case2 a _ =>
    obtain ⟨ms, us, rfl, hms, hus⟩ := List.map_eq_append_iff.1 hls
    obtain ⟨comma, rfl, hcomma⟩ := List.map_eq_singleton_iff.1 hus
    rw [List.forall_mem_singleton, ← hms] at hargs
    simp only [List.length_append, List.length_cons] at hn hb
    obtain ⟨n, rfl⟩ : ∃ k, n = k + 1 := ⟨n - 1, by omega⟩
    obtain ⟨e, he, hex⟩ := hp ms (comma :: close :: rest) a.tree hargs (by omega)
      (.cons (by rw [hcomma]; decide))
    have hread := (arguments_read hargs (.inl hcomma) he stop n).1 hcomma
    refine ⟨[e], ?_, by simp [hex]⟩
    simpa [hnone, Except.map] using hread
  | case3 a _ =>
    rw [List.forall_mem_singleton, ← hls] at hargs
    obtain ⟨e, he, hex⟩ := hp ls (close :: rest) a.tree hargs hb hends
    obtain ⟨n, rfl⟩ : ∃ k, n = k + 1 := by
      obtain ⟨t, ls, rfl, -⟩ := hargs.exists_cons
      rw [List.length_cons] at hn
      exact ⟨n - 1, by omega⟩
    exact ⟨[e], (arguments_read hargs (.inr hclose) he stop n).2 hclose, by simp [hex]⟩
  | case4 a b as ih =>
    obtain ⟨ms, us, rfl, hms, hus⟩ := List.map_eq_append_iff.1 hls
    obtain ⟨comma, vs, rfl, hcomma, hvs⟩ := List.map_eq_cons_iff.1 hus
    rw [List.forall_mem_cons, ← hms] at hargs
    simp only [List.length_append, List.length_cons] at hn hb
    obtain ⟨n, rfl⟩ : ∃ k, n = k + 1 := ⟨n - 1, by omega⟩
    obtain ⟨es, hes, htrees⟩ := ih hargs.2 hvs (n := n) (by omega) (by omega)
    obtain ⟨e, he, hex⟩ := hp ms (comma :: (vs ++ close :: rest)) a.tree hargs.1 (by omega)
      (.cons (by rw [hcomma]; decide))
    have hread := (arguments_read hargs.1 (.inl hcomma) he stop n).1 hcomma
    refine ⟨e :: es, ?_, by simp [hex, htrees]⟩
    simpa [hes, Except.map] using hread

theorem parenthesized_read {close : Lexeme} (hder : Derives d .disjunction (ms.map (·.token)) tree)
    (hclose : close.token = .rightParen)
    (hread : p (ms ++ close :: rest) = .ok (e, close :: rest)) (t : Lexeme) :
    parenthesized stop p t (ms ++ close :: rest) = .ok (e, rest) := by
  obtain ⟨⟨start, stop', tok⟩, ms, rfl, hu⟩ := hder.exists_cons
  obtain ⟨start'', stop'', tok''⟩ := close
  cases hclose
  rw [List.cons_append] at hread ⊢
  unfold parenthesized
  split
  · next h =>
    simp only [List.cons.injEq, Lexeme.mk.injEq] at h
    obtain ⟨⟨-, -, rfl⟩, -⟩ := h
    exact absurd hu (by simp [Token.opening])
  · rw [hread]
    rfl

theorem Accepts.atom (hp : Accepts d .disjunction bound p) :
    Accepts d .atom (bound + 2) (Grammar.atom stop p) := by
  intro ls rest e he hlen hends
  generalize hts : ls.map (·.token) = ts at he
  cases he with
  | operand hm _ => cases hm
  | @number n s hs =>
    obtain ⟨⟨start, close, tok⟩, rfl, rfl⟩ := List.map_eq_singleton_iff.1 hts
    refine ⟨.number s n.toFloat (.ofOffsets start close), ?_, rfl⟩
    simp only [List.cons_append, List.nil_append, Grammar.atom, hs]
    rfl
  | var =>
    obtain ⟨⟨start, close, tok⟩, rfl, rfl⟩ := List.map_eq_singleton_iff.1 hts
    exact ⟨_, rfl, rfl⟩
  | truth =>
    obtain ⟨⟨start, close, tok⟩, rfl, rfl⟩ := List.map_eq_singleton_iff.1 hts
    exact ⟨_, rfl, rfl⟩
  | parens he =>
    obtain ⟨⟨start, close, tok⟩, us, rfl, rfl, hus⟩ := List.map_eq_cons_iff.1 hts
    obtain ⟨ms, cs, rfl, rfl, hcs⟩ := List.map_eq_append_iff.1 hus
    obtain ⟨c, rfl, hc⟩ := List.map_eq_singleton_iff.1 hcs
    simp only [List.length_cons, List.length_append, List.length_nil] at hlen
    obtain ⟨e', hread, rfl⟩ := hp ms (c :: rest) e he (by omega) (.cons (by rw [hc]; decide))
    refine ⟨e', ?_, rfl⟩
    simpa [Grammar.atom] using parenthesized_read he hc hread _

/-- What is no call is read as an atom, as no parenthesis follows it. -/
theorem callOrAtom_read (hder : Derives d .atom (ls.map (·.token)) e)
    (hends : Ends .application rest) (stop : Nat) (p : Parser Expr) (bound : Nat) :
    callOrAtom stop p bound (ls ++ rest) = Grammar.atom stop p (ls ++ rest) := by
  unfold callOrAtom
  split
  · next start close f start' close' ts h =>
    generalize hts : ls.map (·.token) = us at hder
    cases hder with
    | operand hm _ => cases hm
    | var =>
      obtain ⟨t, rfl, -⟩ := List.map_eq_singleton_iff.1 hts
      rw [List.singleton_append, List.cons.injEq] at h
      rw [h.2] at hends
      exact absurd (hends _ rfl) (by simp [Token.closing, Level.depth])
    | _ =>
      obtain ⟨t, vs, rfl, ht, -⟩ := List.map_eq_cons_iff.1 hts
      rw [List.cons_append, List.cons.injEq] at h
      rw [h.1] at ht
      cases ht
  · rfl

theorem Accepts.callOrAtom (hp : Accepts d .disjunction bound p) (stop : Nat) :
    Accepts d .application (bound + 2) (Grammar.callOrAtom stop p (bound + 1)) := by
  intro ls rest e he hlen hends
  generalize hts : ls.map (·.token) = ts at he
  cases he with
  | operand hm he =>
    cases hm
    subst hts
    rw [callOrAtom_read he hends]
    exact hp.atom ls rest e he hlen (hends.tighten (by decide))
  | @call trailing f args hargs =>
    obtain ⟨ms, cs, rfl, hms, hcs⟩ := List.map_eq_append_iff.1 hts
    obtain ⟨⟨start, stop', tok⟩, us, rfl, rfl, hus⟩ := List.map_eq_cons_iff.1 hms
    obtain ⟨⟨start', stop'', tok⟩, as, rfl, rfl, has⟩ := List.map_eq_cons_iff.1 hus
    obtain ⟨⟨start'', close, tok⟩, rfl, rfl⟩ := List.map_eq_singleton_iff.1 hcs
    simp only [List.length_append, List.length_cons, List.length_nil] at hlen
    have hclose : (⟨start'', close, .rightParen⟩ : Lexeme).token = .rightParen := rfl
    obtain ⟨es, hes, htrees⟩ := hp.arguments (n := bound + 1) hargs has (by omega) (by omega) hclose
      stop rest
    refine ⟨.call f es (.ofOffsets start close), ?_, by simp [Expr.eraseSpans, htrees]⟩
    simp only [List.cons_append, List.append_assoc, List.nil_append, Grammar.callOrAtom, hes,
      ok_bind]
    rfl

theorem Accepts.primary (hp : Accepts d .disjunction bound p) (stop : Nat) :
    Accepts d .application (bound + 1) (Grammar.primary stop p (bound + 1)) := by
  intro ls rest e he hlen hends
  obtain ⟨e', hread, rfl⟩ := hp.callOrAtom stop ls rest e he (by omega) hends
  refine ⟨e', ?_, rfl⟩
  simp only [Grammar.primary, hread, ok_bind]
  split
  · exact absurd (hends _ rfl) (by simp [Token.closing, Level.depth])
  · exact absurd (hends _ rfl) (by simp [Token.closing, Level.depth])
  · exact absurd (hends _ rfl) (by simp [Token.closing, Level.depth])
  · rfl

theorem expression_accepts (d : Dialect) (stop bound : Nat) :
    Accepts d .disjunction bound (expression stop bound) := by
  induction bound with
  | zero => exact fun ls rest e he hlen => absurd hlen (Nat.not_lt_zero _)
  | succ bound ih =>
    intro ls rest e he hlen hends
    have hlevels : Accepts d .disjunction (bound + 1)
        (disjunction stop (primary stop (expression stop bound) (bound + 1)) (bound + 1)) :=
      (ih.primary stop).factor.term.sum.bitwise.comparison.negation.conjunction.disjunction
    obtain ⟨e', hread, rfl⟩ := hlevels ls rest e he hlen hends
    refine ⟨e', ?_, rfl⟩
    unfold expression
    split
    · next h =>
      obtain ⟨t, ls, rfl, ht⟩ := he.exists_cons
      rw [List.cons_append, List.cons.injEq] at h
      rw [h.1] at ht
      exact absurd ht (by simp [Token.opening])
    · exact hread

theorem wholeExpression_accepts (h : Derives d .disjunction (ls.map (·.token)) e) (stop : Nat) :
    ∃ e', wholeExpression stop ls = .ok e' ∧ e'.eraseSpans = e := by
  obtain ⟨e', hread, rfl⟩ := expression_accepts d stop (ls.length + 1) ls [] e h (by omega) (.nil _)
  refine ⟨e', ?_, rfl⟩
  obtain ⟨t, ls, rfl, -⟩ := h.exists_cons
  rw [List.append_nil] at hread
  simp only [wholeExpression, hread, ok_bind]
  rfl

theorem statement_accepts {s : Statement} (h : Derives d .disjunction ts s.value.eraseSpans)
    (hls : ls.map (·.token) = .ident s.target :: .assign s.op :: ts) (stop : Nat) :
    (statement stop ls).map Statement.eraseSpans = .ok s.eraseSpans := by
  obtain ⟨l, ls, rfl, hl, hls⟩ := List.map_eq_cons_iff.1 hls
  obtain ⟨m, ls, rfl, hm, rfl⟩ := List.map_eq_cons_iff.1 hls
  obtain ⟨e, he, herase⟩ := wholeExpression_accepts h stop
  apply map_eq_ok.2
  refine ⟨⟨s.target, s.op, e⟩, statement_eq_ok.2 ⟨l, m, ls, rfl, hl, hm, he⟩, ?_⟩
  rw [Statement.eraseSpans, Statement.eraseSpans, herase]

end Formulae.Grammar
