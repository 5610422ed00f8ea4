import Formulae.Proofs.Grammar.Edges
import Formulae.Proofs.Outcome
import Formulae.Proofs.Syntax.Names

namespace Formulae.Grammar
open Outcome
set_option autoImplicit true

/-- The parser takes off the front what derives at the level from fewer lexemes than `bound`. -/
def Accepts (d : Dialect) (l : Level) (bound : Nat) (p : Parser Expr) : Prop :=
  ∀ ls rest e, Derives d l (ls.map (·.token)) e → ls.length < bound → Ends l rest →
    ∃ e', p (ls ++ rest) = .ok (e', rest) ∧ e'.eraseSpans = e

theorem Accepts.chain {sep? : Token → Option ω} {links : List (Link ω)}
    (hp : Accepts d m bound p) (hls : ls.map (·.token) = linkTokens links)
    (hderives : ∀ x ∈ links, Derives d m x.tokens x.tree)
    (hseps : ∀ x ∈ links, sep? x.sep = some x.op ∧ x.sep.closing ≤ m.depth)
    (hn : ls.length ≤ n) (hb : ls.length ≤ bound) (hends : Ends m rest)
    (hstop : ∀ x ∈ rest.head?, sep? x.token = none) :
    ∃ more, Grammar.chain sep? p n (ls ++ rest) = .ok (more, rest) ∧
      more.map (fun x => (x.1, x.2.eraseSpans)) = links.map fun x => (x.op, x.tree) := by
  induction links generalizing ls n with
  | nil =>
    obtain rfl : ls = [] := by simpa [linkTokens] using hls
    refine ⟨[], ?_, rfl⟩
    cases n with
    | zero => rfl
    | succ n =>
      cases rest with
      | nil => rfl
      | cons x xs => simp [Grammar.chain, hstop x rfl]
  | cons x links ih =>
    simp only [linkTokens, List.flatMap_cons, List.cons_append] at hls
    obtain ⟨t, ls, rfl, ht, hls⟩ := List.map_eq_cons_iff.1 hls
    obtain ⟨ms, us, rfl, hms, hus⟩ := List.map_eq_append_iff.1 hls
    rw [List.forall_mem_cons] at hderives hseps
    simp only [List.length_cons, List.length_append] at hn hb
    obtain ⟨n, rfl⟩ : ∃ k, n = k + 1 := ⟨n - 1, by omega⟩
    obtain ⟨more, hmore, htrees⟩ := ih hus hderives.2 hseps.2 (n := n) (by omega) (by omega)
    have hnext : Ends m (us ++ rest) := by
      cases links with
      | nil =>
        obtain rfl : us = [] := by simpa [linkTokens] using hus
        exact hends
      | cons y ys =>
        simp only [List.flatMap_cons, List.cons_append] at hus
        obtain ⟨s, us, rfl, hs, -⟩ := List.map_eq_cons_iff.1 hus
        exact .cons (by rw [hs]; exact (hseps.2 y List.mem_cons_self).2)
    obtain ⟨e, he, hex⟩ := hp ms (us ++ rest) x.tree (hms ▸ hderives.1) (by omega) hnext
    refine ⟨(x.op, e) :: more, ?_, by simp [hex, htrees]⟩
    simp [Grammar.chain, ht, hseps.1.1, he, hmore]

/-- The tokens of a first operand and of links to it, which all derive at one level. -/
structure Chained (d : Dialect) (m : Level) (Joins : Token → ω → Prop) (ts : List Token)
    (first : Expr) (links : List (Link ω)) : Prop where
  tokens : ∃ us, ts = us ++ linkTokens links ∧ Derives d m us first
  seps : ∀ x ∈ links, Joins x.sep x.op
  derives : ∀ x ∈ links, Derives d m x.tokens x.tree

theorem Chained.single (h : Derives d m ts e) (Joins : Token → ω → Prop) :
    Chained d m Joins ts e [] :=
  ⟨⟨ts, by simp [linkTokens], h⟩, by simp, by simp⟩

theorem Chained.read {sep? : Token → Option ω} {links : List (Link ω)}
    (h : Chained d m Joins (ls.map (·.token)) first links) (hp : Accepts d m bound p)
    (hsep : ∀ t o, Joins t o → sep? t = some o ∧ t.closing ≤ m.depth)
    (hstop : ∀ t : Token, t.closing ≤ l.depth → sep? t = none) (hlm : l.depth ≤ m.depth)
    (hlen : ls.length < bound) (hends : Ends l rest) :
    ∃ e ms more, p (ls ++ rest) = .ok (e, ms) ∧ Grammar.chain sep? p bound ms = .ok (more, rest) ∧
      e.eraseSpans = first ∧
      more.map (fun x => (x.1, x.2.eraseSpans)) = links.map fun x => (x.op, x.tree) := by
  obtain ⟨⟨us, hls, hfirst⟩, hseps, hderives⟩ := h
  obtain ⟨fs, ms, rfl, rfl, hms⟩ := List.map_eq_append_iff.1 hls
  rw [List.length_append] at hlen
  obtain ⟨more, hmore, htrees⟩ := hp.chain (n := bound) hms hderives
    (fun x hx => hsep _ _ (hseps x hx)) (by omega) (by omega) (hends.tighten hlm)
    (fun x hx => hstop _ (hends x hx))
  have hnext : Ends m (ms ++ rest) := by
    cases links with
    | nil =>
      obtain rfl : ms = [] := by simpa [linkTokens] using hms
      exact hends.tighten hlm
    | cons y ys =>
      simp only [linkTokens, List.flatMap_cons, List.cons_append] at hms
      obtain ⟨t, ms, rfl, ht, -⟩ := List.map_eq_cons_iff.1 hms
      exact .cons (by rw [ht]; exact (hsep _ _ (hseps y List.mem_cons_self)).2)
  obtain ⟨e, he, hfirst⟩ := hp fs (ms ++ rest) first hfirst (by omega) hnext
  exact ⟨e, ms ++ rest, more, by rw [List.append_assoc, he], hmore, hfirst, htrees⟩

/-- The tree of a chain of one connective. -/
def logicalTree (op : BoolOp) (first : Expr) (links : List (Link BoolOp)) : Expr :=
  if links = [] then first else .logical op (first :: links.map (·.tree)) .zero

theorem connected_accepts (hp : Accepts d m bound p)
    (hinv : ∀ {ts e}, Derives d l ts e →
      ∃ first links, Chained d m Joins ts first links ∧ e = logicalTree op first links)
    (hsep : ∀ t o, Joins t o → sep? t = some o ∧ t.closing ≤ m.depth)
    (hstop : ∀ t : Token, t.closing ≤ l.depth → sep? t = none) (hlm : l.depth ≤ m.depth) :
    Accepts d l bound (connected op sep? bound p) := by
  intro ls rest e he hlen hends
  obtain ⟨first, links, hc, rfl⟩ := hinv he
  obtain ⟨e, ms, more, hfirst, hmore, rfl, htrees⟩ := hc.read hp hsep hstop hlm hlen hends
  refine ⟨joined op e more, by simp [connected, hfirst, hmore], ?_⟩
  have hmap := congrArg (List.map Prod.snd) htrees
  simp only [List.map_map, Function.comp_def] at hmap
  cases more with
  | nil =>
    obtain rfl : links = [] := by simpa using htrees.symm
    rfl
  | cons x xs =>
    have hne : links ≠ [] := by
      rintro rfl
      simp at htrees
    simp [joined, logicalTree, hne, Expr.eraseSpans, ← hmap, Function.comp_def]

theorem Derives.or_chain (h : Derives d .disjunction ts e) :
    ∃ first links, Chained d .conjunction (Connects d .or) ts first links ∧
      e = logicalTree .or first links := by
  cases h with
  | operand hm h =>
    cases hm
    exact ⟨e, [], .single h _, rfl⟩
  | or hf hn hs hl => exact ⟨_, _, ⟨⟨_, rfl, hf⟩, hs, hl⟩, by simp [logicalTree, hn]⟩

theorem Derives.and_chain (h : Derives d .conjunction ts e) :
    ∃ first links, Chained d .negation (Connects d .and) ts first links ∧
      e = logicalTree .and first links := by
  cases h with
  | operand hm h =>
    cases hm
    exact ⟨e, [], .single h _, rfl⟩
  | and hf hn hs hl => exact ⟨_, _, ⟨⟨_, rfl, hf⟩, hs, hl⟩, by simp [logicalTree, hn]⟩

theorem Derives.singleOr_chain (h : Derives d .singleOr ts e) :
    ∃ first links, Chained d .singleAnd (ConnectsSingly d .or) ts first links ∧
      e = logicalTree .or first links := by
  cases h with
  | operand hm h =>
    cases hm
    exact ⟨e, [], .single h _, rfl⟩
  | singleOr hf hn hs hl => exact ⟨_, _, ⟨⟨_, rfl, hf⟩, hs, hl⟩, by simp [logicalTree, hn]⟩

theorem Derives.singleAnd_chain (h : Derives d .singleAnd ts e) :
    ∃ first links, Chained d .sum (ConnectsSingly d .and) ts first links ∧
      e = logicalTree .and first links := by
  cases h with
  | operand hm h =>
    cases hm
    exact ⟨e, [], .single h _, rfl⟩
  | singleAnd hf hn hs hl => exact ⟨_, _, ⟨⟨_, rfl, hf⟩, hs, hl⟩, by simp [logicalTree, hn]⟩

/-- The tree of operands that are taken to the left one by one. -/
def leftTree (first : Expr) (links : List (Link BinaryOp)) : Expr :=
  links.foldl (fun left x => .binary x.op left x.tree .zero) first

theorem Chained.snoc {links : List (Link BinaryOp)} (h : Chained d m Joins ts first links)
    (ht : Joins t op) (hr : Derives d m us r) :
    Chained d m Joins (ts ++ t :: us) first (links ++ [⟨⟨us, r⟩, t, op⟩]) := by
  obtain ⟨⟨vs, rfl, hfirst⟩, hseps, hderives⟩ := h
  refine ⟨⟨vs, by simp [linkTokens], hfirst⟩, ?_, ?_⟩
  · rw [List.forall_mem_append, List.forall_mem_singleton]
    exact ⟨hseps, ht⟩
  · rw [List.forall_mem_append, List.forall_mem_singleton]
    exact ⟨hderives, hr⟩

theorem Derives.sum_chain (h : Derives d .sum ts e) :
    ∃ first links, Chained d .term (fun t op => t = .op op ∧ Adds op) ts first links ∧
      e = leftTree first links := by
  generalize hl : Level.sum = l at h
  induction h with
  | operand hm h _ =>
    subst hl
    cases hm
    exact ⟨_, [], .single h _, rfl⟩
  | sum hop _ hr ih _ =>
    obtain ⟨first, links, hc, rfl⟩ := ih rfl
    exact ⟨first, _, hc.snoc ⟨rfl, hop⟩ hr, by simp [leftTree]⟩
  | _ => cases hl

theorem Derives.term_chain (h : Derives d .term ts e) :
    ∃ first links, Chained d .factor (fun t op => t = .op op ∧ Multiplies op) ts first links ∧
      e = leftTree first links := by
  generalize hl : Level.term = l at h
  induction h with
  | operand hm h _ =>
    subst hl
    cases hm
    exact ⟨_, [], .single h _, rfl⟩
  | term hop _ hr ih _ =>
    obtain ⟨first, links, hc, rfl⟩ := ih rfl
    exact ⟨first, _, hc.snoc ⟨rfl, hop⟩ hr, by simp [leftTree]⟩
  | _ => cases hl

theorem eraseSpans_foldl_between {more : List (BinaryOp × Expr)} {links : List (Link BinaryOp)}
    (h : more.map (fun x => (x.1, x.2.eraseSpans)) = links.map fun x => (x.op, x.tree))
    (first : Expr) :
    (more.foldl (fun left x => between x.1 left x.2) first).eraseSpans =
      leftTree first.eraseSpans links := by
  induction more generalizing links first with
  | nil =>
    obtain rfl : links = [] := by simpa using h.symm
    rfl
  | cons x more ih =>
    cases links with
    | nil => simp at h
    | cons y links =>
      simp only [List.map_cons, List.cons.injEq, Prod.mk.injEq] at h
      simp only [List.foldl_cons, ih h.2, leftTree]
      simp only [between, Expr.eraseSpans, h.1.1, h.1.2]

theorem leftGrouped_accepts (hp : Accepts d m bound p)
    (hinv : ∀ {ts e}, Derives d l ts e →
      ∃ first links, Chained d m Joins ts first links ∧ e = leftTree first links)
    (hsep : ∀ t o, Joins t o → op? t = some o ∧ t.closing ≤ m.depth)
    (hstop : ∀ t : Token, t.closing ≤ l.depth → op? t = none) (hlm : l.depth ≤ m.depth) :
    Accepts d l bound (leftGrouped op? bound p) := by
  intro ls rest e he hlen hends
  obtain ⟨first, links, hc, rfl⟩ := hinv he
  obtain ⟨e, ms, more, hfirst, hmore, rfl, htrees⟩ := hc.read hp hsep hstop hlm hlen hends
  refine ⟨more.foldl (fun left x => between x.1 left x.2) e, ?_,
    eraseSpans_foldl_between htrees e⟩
  simp [leftGrouped, hfirst, hmore]

theorem Derives.compare_chain (h : Derives d .comparison ts e) :
    ∃ first links, Chained d .singleOr Compares ts first links ∧
      e = if links = [] then first else
        .compare first (links.map fun x => (x.op, x.tree)) .zero := by
  cases h with
  | operand hm h =>
    cases hm
    exact ⟨e, [], .single h _, rfl⟩
  | compare hf hn hs hl => exact ⟨_, _, ⟨⟨_, rfl, hf⟩, hs, hl⟩, by simp [hn]⟩

end Formulae.Grammar
