import Formulae.Proofs.Grammar.Inversion
import Formulae.Proofs.Syntax.Operands
import Formulae.Proofs.Token.Standing

namespace Formulae
open Text
set_option autoImplicit true

/-- The bytes at the span are the characters `ys`. -/
def Span.Holds (text : List Char) (sp : Span) (ys : List Char) : Prop :=
  StandsAt text sp.start.toNat sp.stop.toNat ys

namespace Expr

/-- A literal and a name are what their spans hold. A call begins with the name of the function and
ends with a parenthesis. -/
def Pointed (d : Dialect) (text : List Char) : Expr → Prop
  | number s _ sp => sp.Holds text s.toList
  | bool b sp => ∃ ys, sp.Holds text ys ∧ Token.IsSpelling d (.truth b) ys
  | var x sp => sp.Holds text x.toList
  | call f _ sp => ∃ ys, sp.Holds text (f.toList ++ ys ++ [')'])
  | unary _ _ _ | binary _ _ _ _ | compare _ _ _ | logical _ _ _ => True

/-- The span of the node is in the text and not empty, and those of its operands are within it, one
behind the other. -/
structure NodeLocated (d : Dialect) (text : List Char) (e : Expr) : Prop where
  nonempty : e.span.start < e.span.stop
  inText : e.span.stop.toNat ≤ byteCount text
  nested : ∀ e' ∈ e.operands, e.span.start ≤ e'.span.start ∧ e'.span.stop ≤ e.span.stop
  ordered : e.operands.Pairwise fun l r => l.span.stop ≤ r.span.start
  pointed : e.Pointed d text

/-- Every node of the tree is located in the text. -/
inductive Located (d : Dialect) (text : List Char) : Expr → Prop
  | node : e.NodeLocated d text → (∀ e' ∈ e.operands, Located d text e') → Located d text e

theorem Located.here {text : List Char} (h : Located d text e) : e.NodeLocated d text := by
  cases h with
  | node h _ => exact h

end Expr

theorem Text.StandsAt.through (hxs : StandsAt text i j xs) (hzs : StandsAt text k l zs) (h : j ≤ k) :
    ∃ ys, StandsAt text i l (xs ++ ys ++ zs) := by
  obtain ⟨before, after, htext, rfl, rfl⟩ := hxs
  obtain ⟨before', after', htext', rfl, rfl⟩ := hzs
  have hfirst : before ++ xs <+: text := ⟨after, htext.symm⟩
  have hsecond : before' <+: text := ⟨zs ++ after', by rw [htext', List.append_assoc]⟩
  have hbegins : before ++ xs <+: before' := by
    by_contra hnot
    have hlt := byteCount_lt hsecond hfirst hnot
    rw [byteCount_append] at hlt
    omega
  obtain ⟨ys, rfl⟩ := hbegins
  refine ⟨ys, before, after', by simp [htext'], rfl, ?_⟩
  simp only [byteCount_append]
  omega

/-- Only truth values may be written as another word. -/
theorem Token.IsSpelling.eq_spelling (h : IsSpelling d t ys) (ht : ∀ b, t ≠ .truth b) :
    ys = t.spelling.toList := by
  rcases h with h | ⟨-, h⟩
  · exact h
  · simp only [renderedKeywords, List.mem_cons, Prod.mk.injEq, List.not_mem_nil, or_false] at h
    rcases h with ⟨-, h⟩ | ⟨-, h⟩
    · exact absurd h (ht true)
    · exact absurd h (ht false)

namespace Span

theorem start_union (s t : Span) :
    (s.union t).start.toNat = min s.start.toNat t.start.toNat := by
  change (if s.start ≤ t.start then s.start else t.start).toNat = _
  split
  · next h => exact (Nat.min_eq_left (UInt16.le_iff_toNat_le.1 h)).symm
  · next h => exact (Nat.min_eq_right (Nat.le_of_not_le (mt UInt16.le_iff_toNat_le.2 h))).symm

theorem stop_union (s t : Span) : (s.union t).stop.toNat = max s.stop.toNat t.stop.toNat := by
  change (if s.stop ≤ t.stop then t.stop else s.stop).toNat = _
  split
  · next h => exact (Nat.max_eq_right (UInt16.le_iff_toNat_le.1 h)).symm
  · next h => exact (Nat.max_eq_left (Nat.le_of_not_le (mt UInt16.le_iff_toNat_le.2 h))).symm

end Span

namespace Token

/-- In a text that is short enough the offsets of a token are those of its span. -/
theorem Stands.offsets (h : Stands d text l) (hlen : byteCount text ≤ 65535) :
    l.span.start.toNat = l.start ∧ l.span.stop.toNat = l.stop := by
  have hlt := h.lt
  have hle := h.stop_le
  constructor
  · exact Span.ofOffsets_start (by omega)
  · exact Span.ofOffsets_stop (by omega)

theorem Stands.holds (h : Stands d text l) (hlen : byteCount text ≤ 65535) :
    ∃ ys, l.span.Holds text ys ∧ IsSpelling d l.token ys := by
  obtain ⟨hstart, hstop⟩ := h.offsets hlen
  obtain ⟨ys, hys, hspelled⟩ := h
  refine ⟨ys, ?_, hspelled.isSpelling⟩
  rw [Span.Holds, hstart, hstop]
  exact hys

end Token

namespace Grammar
open Outcome Token

/-- The lexemes stand in the text, one behind the other, from the byte `a` on. -/
inductive Arranged (d : Dialect) (text : List Char) : Nat → List Lexeme → Prop
  | nil : a ≤ byteCount text → Arranged d text a []
  | cons : a ≤ l.start → Stands d text l → Arranged d text l.stop ls → Arranged d text a (l :: ls)

theorem Arranged.mono (h : Arranged d text b ls) (hab : a ≤ b) : Arranged d text a ls := by
  cases h with
  | nil hb => exact .nil (hab.trans hb)
  | cons hl hstands hls => exact .cons (hab.trans hl) hstands hls

theorem Arranged.tail (h : Arranged d text a (l :: ls)) : Arranged d text a ls := by
  cases h with
  | cons hl hstands hls => exact hls.mono (hl.trans hstands.lt.le)

theorem Arranged.le (h : Arranged d text a ls) : a ≤ byteCount text := by
  cases h with
  | nil ha => exact ha
  | cons hl hstands _ => exact hl.trans (hstands.lt.le.trans hstands.stop_le)

theorem arranged_of_pairwise (hls : ∀ l ∈ ls, Stands d text l) (ha : ∀ l ∈ ls, a ≤ l.start)
    (hpos : a ≤ byteCount text) (h : ls.Pairwise fun l m => l.stop ≤ m.start) :
    Arranged d text a ls := by
  induction h generalizing a with
  | nil => exact .nil hpos
  | cons hl _ ih =>
    rw [List.forall_mem_cons] at hls ha
    exact .cons ha.1 hls.1 (ih hls.2 hl hls.1.stop_le)

theorem arranged_of_lexemes (h : lexemes d text = .ok ls) : Arranged d text 0 ls := by
  rw [← found_of_lexemes h]
  apply arranged_of_pairwise _ _ (Nat.zero_le _) (found_ordered d text)
  · intro l hl
    exact stands_of_mem_found hl
  · intro l _
    exact Nat.zero_le _

/-- The tree is located in the text, between the bytes `a` and `b`. -/
structure Between (d : Dialect) (text : List Char) (a b : Nat) (e : Expr) : Prop where
  start_ge : a ≤ e.span.start.toNat
  stop_le : e.span.stop.toNat ≤ b
  located : e.Located d text

theorem Between.mono (h : Between d text a b e) (ha : a' ≤ a) (hb : b ≤ b') :
    Between d text a' b' e :=
  ⟨ha.trans h.start_ge, h.stop_le.trans hb, h.located⟩

theorem Between.span_lt (h : Between d text a b e) : e.span.start.toNat < e.span.stop.toNat :=
  UInt16.lt_iff_toNat_lt.1 h.located.here.nonempty

theorem Between.le (h : Between d text a b e) : a ≤ b :=
  h.start_ge.trans (h.span_lt.le.trans h.stop_le)

/-- The trees are located between the bytes `a` and `b`, one behind the other. -/
inductive InOrder (d : Dialect) (text : List Char) : Nat → Nat → List Expr → Prop
  | nil : a ≤ b → InOrder d text a b []
  | cons : Between d text a m e → InOrder d text m b es → InOrder d text a b (e :: es)

theorem InOrder.le (h : InOrder d text a b es) : a ≤ b := by
  induction h with
  | nil h => exact h
  | cons he _ ih => exact he.le.trans ih

theorem InOrder.between (h : InOrder d text a b es) : ∀ e ∈ es, Between d text a b e := by
  induction h with
  | nil => simp
  | cons he hes ih =>
    rw [List.forall_mem_cons]
    refine ⟨he.mono le_rfl hes.le, ?_⟩
    intro e' he'
    exact (ih e' he').mono he.le le_rfl

theorem InOrder.pairwise (h : InOrder d text a b es) :
    es.Pairwise fun l r => l.span.stop ≤ r.span.start := by
  induction h with
  | nil => exact .nil
  | cons he hes ih =>
    apply List.Pairwise.cons _ ih
    intro r hr
    exact UInt16.le_iff_toNat_le.2 (he.stop_le.trans (hes.between r hr).start_ge)

/-- A node is located if its operands are in order between the ends of its span. -/
theorem located_of_inOrder {e : Expr} (h : InOrder d text a b e.operands)
    (ha : e.span.start.toNat ≤ a) (hb : b ≤ e.span.stop.toNat)
    (hlt : e.span.start.toNat < e.span.stop.toNat) (hle : e.span.stop.toNat ≤ byteCount text)
    (hp : e.Pointed d text) : e.Located d text := by
  apply Expr.Located.node
  · constructor
    · exact UInt16.lt_iff_toNat_lt.2 hlt
    · exact hle
    · intro e' he'
      have hbetween := h.between e' he'
      constructor
      · exact UInt16.le_iff_toNat_le.2 (ha.trans hbetween.start_ge)
      · exact UInt16.le_iff_toNat_le.2 (hbetween.stop_le.trans hb)
    · exact h.pairwise
    · exact hp
  · intro e' he'
    exact (h.between e' he').located

/-- Trees in order end where the last of them does. -/
theorem InOrder.toLast (h : InOrder d text a b es) (hx : es.getLast? = some x) :
    InOrder d text a x.span.stop.toNat es ∧ x.span.stop.toNat ≤ b := by
  induction h with
  | nil => cases hx
  | @cons a m e b es he hes ih =>
    cases es with
    | nil =>
      obtain rfl : e = x := by simpa using hx
      exact ⟨.cons ⟨he.start_ge, le_rfl, he.located⟩ (.nil le_rfl), he.stop_le.trans hes.le⟩
    | cons e' es =>
      rw [List.getLast?_cons_cons] at hx
      obtain ⟨hlast, hle⟩ := ih hx
      exact ⟨.cons he hlast, hle⟩

/-- The span of a chain goes from the first operand to the last. -/
theorem InOrder.chained {more : List (ω × Expr)} (hfirst : Between d text a m first)
    (hmore : InOrder d text m b (more.map Prod.snd)) :
    (chainSpan first more).start.toNat = first.span.start.toNat ∧
      InOrder d text first.span.start.toNat (chainSpan first more).stop.toNat
        (first :: more.map Prod.snd) ∧
      (chainSpan first more).stop.toNat ≤ b := by
  have htight : Between d text first.span.start.toNat first.span.stop.toNat first :=
    ⟨le_rfl, le_rfl, hfirst.located⟩
  unfold chainSpan
  split
  · next hnone =>
    rw [List.getLast?_eq_none_iff.1 hnone] at hmore ⊢
    exact ⟨rfl, .cons htight (.nil le_rfl), hfirst.stop_le.trans hmore.le⟩
  · next op x hx =>
    have hlast : (more.map Prod.snd).getLast? = some x := by rw [List.getLast?_map, hx]; rfl
    obtain ⟨hinner, hb⟩ := hmore.toLast hlast
    have hxm := hmore.between x (List.mem_of_getLast? hlast)
    have hx_lt := hxm.span_lt
    have hfirst_lt := hfirst.span_lt
    have hfirst_le := hfirst.stop_le
    have hm_le := hxm.start_ge
    rw [Span.start_union, Span.stop_union, Nat.min_eq_left (by omega), Nat.max_eq_right (by omega)]
    exact ⟨rfl, .cons ⟨le_rfl, hfirst.stop_le, hfirst.located⟩ hinner, hb⟩

/-- A node whose span is that of a chain of its operands is where they are. -/
theorem Between.chained {more : List (ω × Expr)} {e : Expr} (hfirst : Between d text a m first)
    (hmore : InOrder d text m b (more.map Prod.snd)) (hb : b ≤ byteCount text)
    (hops : e.operands = first :: more.map Prod.snd) (hspan : e.span = chainSpan first more)
    (hp : e.Pointed d text) : Between d text a b e := by
  -- The span ends with the last operand, which may be before `b`: parentheses are left out of it.
  obtain ⟨hstart, horder, hstop⟩ := InOrder.chained hfirst hmore
  rw [← hspan] at hstart horder hstop
  have hwithin := horder.between first List.mem_cons_self
  rw [← hops] at horder
  refine ⟨hstart ▸ hfirst.start_ge, hstop, ?_⟩
  apply located_of_inOrder horder hstart.le le_rfl _ (hstop.trans hb) hp
  rw [hstart]
  exact hwithin.span_lt.trans_le hwithin.stop_le

theorem Between.binary (hl : Between d text a m l) (hr : Between d text m b r)
    (hb : b ≤ byteCount text) (op : BinaryOp) : Between d text a b (Grammar.between op l r) := by
  have hmore : InOrder d text m b ([(op, r)].map Prod.snd) := .cons hr (.nil le_rfl)
  exact hl.chained hmore hb rfl rfl trivial

theorem Between.joined {more : List (BoolOp × Expr)} (hfirst : Between d text a m first)
    (hmore : InOrder d text m b (more.map Prod.snd)) (hb : b ≤ byteCount text) (op : BoolOp) :
    Between d text a b (joined op first more) := by
  cases more with
  | nil => exact hfirst.mono le_rfl hmore.le
  | cons x more => exact hfirst.chained hmore hb rfl rfl trivial

theorem Between.compared {more : List (CmpOp × Expr)} (hfirst : Between d text a m first)
    (hmore : InOrder d text m b (more.map Prod.snd)) (hb : b ≤ byteCount text) :
    Between d text a b (compared first more) := by
  cases more with
  | nil => exact hfirst.mono le_rfl hmore.le
  | cons x more => exact hfirst.chained hmore hb rfl rfl trivial

theorem Between.grouped {more : List (BinaryOp × Expr)} (hfirst : Between d text a m first)
    (hmore : InOrder d text m b (more.map Prod.snd)) (hb : b ≤ byteCount text) :
    Between d text a b (more.foldl (fun left x => Grammar.between x.1 left x.2) first) := by
  induction more generalizing first m with
  | nil => exact hfirst.mono le_rfl hmore.le
  | cons x more ih =>
    cases hmore with
    | cons hx hmore => exact ih (hfirst.binary hx (hmore.le.trans hb) x.1) hmore

/-- Whatever the parser reads is located between two bytes, and what it leaves is behind them. -/
def Locates (d : Dialect) (text : List Char) (p : Parser Expr) : Prop :=
  ∀ a ls e rest, Arranged d text a ls → p ls = .ok (e, rest) →
    ∃ b, Between d text a b e ∧ Arranged d text b rest

theorem Locates.chain {sep? : Token → Option ω} (hp : Locates d text p)
    (h : Arranged d text a ls) (hc : chain sep? p bound ls = .ok (more, rest)) :
    ∃ b, InOrder d text a b (more.map Prod.snd) ∧ Arranged d text b rest := by
  induction bound generalizing a ls more with
  | zero =>
    cases hc
    exact ⟨a, .nil le_rfl, h⟩
  | succ bound ih =>
    rcases chain_eq_ok hc with ⟨rfl, rfl⟩ | ⟨t, ts, s, e, ms, more', rfl, -, he, hm, rfl⟩
    · exact ⟨a, .nil le_rfl, h⟩
    · obtain ⟨m, hbetween, harranged⟩ := hp _ _ _ _ h.tail he
      obtain ⟨b, horder, hrest⟩ := ih harranged hm
      exact ⟨b, .cons hbetween horder, hrest⟩

theorem Locates.connected {op : BoolOp} (hp : Locates d text p) :
    Locates d text (connected op sep? bound p) := by
  intro a ls e rest h hread
  obtain ⟨first, ms, more, hf, hm, rfl⟩ := connected_eq_ok hread
  obtain ⟨m, hfirst, harranged⟩ := hp _ _ _ _ h hf
  obtain ⟨b, hmore, hrest⟩ := hp.chain harranged hm
  exact ⟨b, hfirst.joined hmore hrest.le op, hrest⟩

theorem Locates.leftGrouped (hp : Locates d text p) :
    Locates d text (leftGrouped op? bound p) := by
  intro a ls e rest h hread
  obtain ⟨first, ms, more, hf, hm, rfl⟩ := leftGrouped_eq_ok hread
  obtain ⟨m, hfirst, harranged⟩ := hp _ _ _ _ h hf
  obtain ⟨b, hmore, hrest⟩ := hp.chain harranged hm
  exact ⟨b, hfirst.grouped hmore hrest.le, hrest⟩

theorem between_leaf {e : Expr} (h : Stands d text l) (hlen : byteCount text ≤ 65535)
    (hspan : e.span = l.span) (hops : e.operands = []) (hp : e.Pointed d text) :
    Between d text l.start l.stop e := by
  obtain ⟨hstart, hstop⟩ := h.offsets hlen
  rw [← hspan] at hstart hstop
  refine ⟨hstart.ge, hstop.le, ?_⟩
  have horder : InOrder d text l.start l.stop e.operands := by
    rw [hops]
    exact .nil h.lt.le
  apply located_of_inOrder horder hstart.le hstop.ge _ _ hp
  · rw [hstart, hstop]
    exact h.lt
  · rw [hstop]
    exact h.stop_le

theorem between_sign (h : Stands d text l) (hlen : byteCount text ≤ 65535)
    (he : Between d text l.stop b e) (hb : b ≤ byteCount text) (op : UnaryOp) :
    Between d text l.start b (.unary op e ⟨l.span.start, e.span.stop⟩) := by
  obtain ⟨hstart, -⟩ := h.offsets hlen
  have hlt := h.lt
  have hge := he.start_ge
  have hspan := he.span_lt
  refine ⟨hstart.ge, he.stop_le, ?_⟩
  have horder : InOrder d text l.stop e.span.stop.toNat [e] :=
    .cons ⟨hge, le_rfl, he.located⟩ (.nil le_rfl)
  apply located_of_inOrder horder
  · exact hstart.le.trans hlt.le
  · exact le_rfl
  · change l.span.start.toNat < e.span.stop.toNat
    omega
  · exact he.stop_le.trans hb
  · exact trivial

/-- A call stands from its name to the parenthesis behind its arguments. -/
theorem between_call (hname : Stands d text l) (hl : l.token = .ident f)
    (hclose : Stands d text m) (hm : m.token = .rightParen) (hlen : byteCount text ≤ 65535)
    (ha : l.stop ≤ a) (hargs : InOrder d text a b es) (hb : b ≤ m.start) :
    Between d text l.start m.stop (.call f es (.ofOffsets l.start m.stop)) := by
  have hlt : l.start < m.stop := by
    have hname_lt := hname.lt
    have hclose_lt := hclose.lt
    have hargs_le := hargs.le
    omega
  have hle := hclose.stop_le
  have hstart : (Span.ofOffsets l.start m.stop).start.toNat = l.start :=
    Span.ofOffsets_start (by omega)
  have hstop : (Span.ofOffsets l.start m.stop).stop.toNat = m.stop :=
    Span.ofOffsets_stop (by omega)
  refine ⟨hstart.ge, hstop.le, ?_⟩
  apply located_of_inOrder hargs
  · exact hstart.le.trans (hname.lt.le.trans ha)
  · exact hb.trans (hclose.lt.le.trans hstop.ge)
  · change (Span.ofOffsets l.start m.stop).start.toNat < (Span.ofOffsets l.start m.stop).stop.toNat
    rw [hstart, hstop]
    exact hlt
  · exact hstop.le.trans hle
  · obtain ⟨xs, hxs, hf⟩ := hname
    obtain ⟨zs, hzs, hparen⟩ := hclose
    rw [hl] at hf
    rw [hm] at hparen
    obtain rfl := hf.isSpelling.eq_spelling nofun
    obtain rfl := hparen.isSpelling.eq_spelling nofun
    obtain ⟨ys, hys⟩ := hxs.through hzs (ha.trans (hargs.le.trans hb))
    refine ⟨ys, ?_⟩
    rw [Span.Holds, hstart, hstop]
    exact hys

theorem Locates.comparison (hp : Locates d text (Grammar.bitwise stop p bound)) :
    Locates d text (Grammar.comparison stop p bound) := by
  intro a ls e rest h hread
  obtain ⟨first, ms, more, hf, hm, rfl⟩ := comparison_eq_ok hread
  obtain ⟨m, hfirst, harranged⟩ := hp _ _ _ _ h hf
  obtain ⟨b, hmore, hrest⟩ := hp.chain harranged hm
  exact ⟨b, hfirst.compared hmore hrest.le, hrest⟩

theorem Locates.arguments (hp : Locates d text p) (h : Arranged d text a ls)
    (hread : arguments stop p bound ls = .ok (es, rest)) :
    ∃ b, InOrder d text a b es ∧ Arranged d text b rest := by
  induction bound generalizing a ls es with
  | zero =>
    cases hread
    exact ⟨a, .nil le_rfl, h⟩
  | succ bound ih =>
    rcases arguments_eq_ok hread with ⟨rfl, rfl⟩ | ⟨e, ms, he, hrest⟩
    · exact ⟨a, .nil le_rfl, h⟩
    · obtain ⟨m, hbetween, harranged⟩ := hp _ _ _ _ h he
      rcases hrest with ⟨rfl, rfl⟩ | ⟨comma, ms', es', rfl, -, hes, rfl⟩
      · exact ⟨m, .cons hbetween (.nil le_rfl), harranged⟩
      · obtain ⟨b, horder, hrest⟩ := ih harranged.tail hes
        exact ⟨b, .cons hbetween horder, hrest⟩

section
variable (hlen : byteCount text ≤ 65535)
include hlen

theorem Locates.factor (hp : Locates d text p) : Locates d text (Grammar.factor stop p bound) := by
  induction bound with
  | zero =>
    intro a ls e rest h hread
    cases hread
  | succ bound ih =>
    intro a ls e rest h hread
    rcases factor_eq_ok hread with ⟨l, ms, op, operand, rfl, -, ho, rfl⟩ | ⟨base, ms, hb, hrest⟩
    · cases h with
      | cons hle hstands hms =>
        obtain ⟨b, hbetween, hrest⟩ := ih _ _ _ _ hms ho
        exact ⟨b, (between_sign hstands hlen hbetween hrest.le op).mono hle le_rfl, hrest⟩
    · obtain ⟨m, hbase, harranged⟩ := hp _ _ _ _ h hb
      rcases hrest with ⟨rfl, rfl⟩ | ⟨sign, ms', exponent, rfl, -, he, rfl⟩
      · exact ⟨m, hbase, harranged⟩
      · obtain ⟨b, hexponent, hrest⟩ := ih _ _ _ _ harranged.tail he
        exact ⟨b, hbase.binary hexponent hrest.le .pow, hrest⟩

theorem Locates.negation (hp : Locates d text (Grammar.comparison stop p bound)) :
    Locates d text (Grammar.negation stop p bound) := by
  intro a ls
  induction ls generalizing a with
  | nil => exact hp a []
  | cons l ls ih =>
    intro e rest h hread
    rcases negation_eq_ok hread with hread | ⟨t, ts, operand, hls, -, ho, rfl⟩
    · exact hp _ _ _ _ h hread
    · obtain ⟨rfl, rfl⟩ := List.cons.inj hls
      cases h with
      | cons hle hstands hts =>
        obtain ⟨b, hbetween, hrest⟩ := ih _ _ _ hts ho
        exact ⟨b, (between_sign hstands hlen hbetween hrest.le .not).mono hle le_rfl, hrest⟩

theorem Locates.atom (hp : Locates d text p) : Locates d text (Grammar.atom stop p) := by
  intro a ls e rest h hread
  obtain ⟨l, ms, rfl, hcases⟩ := atom_eq_ok hread
  cases h with
  | cons hle hstands hms =>
    obtain ⟨ys, hholds, hys⟩ := hstands.holds hlen
    rcases hcases with ⟨s, n, hl, -, rfl, rfl⟩ | ⟨x, hl, rfl, rfl⟩ | ⟨b, hl, rfl, rfl⟩ |
      ⟨m, -, he, -⟩
    · rw [hl] at hys
      obtain rfl := hys.eq_spelling nofun
      refine ⟨l.stop, Between.mono ?_ hle le_rfl, hms⟩
      exact between_leaf hstands hlen rfl rfl hholds
    · rw [hl] at hys
      obtain rfl := hys.eq_spelling nofun
      refine ⟨l.stop, Between.mono ?_ hle le_rfl, hms⟩
      exact between_leaf hstands hlen rfl rfl hholds
    · rw [hl] at hys
      refine ⟨l.stop, Between.mono ?_ hle le_rfl, hms⟩
      exact between_leaf hstands hlen rfl rfl ⟨ys, hholds, hys⟩
    · obtain ⟨b, hbetween, harranged⟩ := hp _ _ _ _ hms he
      exact ⟨b, hbetween.mono (hle.trans hstands.lt.le) le_rfl, harranged.tail⟩

theorem Locates.primary (hp : Locates d text p) :
    Locates d text (Grammar.primary stop p bound) := by
  intro a ls e rest h hread
  rcases primary_eq_ok hread with hread | ⟨l, l', ms, f, es, m, rfl, hl, -, hes, hm, rfl⟩
  · exact hp.atom hlen _ _ _ _ h hread
  · cases h with
    | cons hle hname hms =>
      obtain ⟨b, hargs, harranged⟩ := hp.arguments hms.tail hes
      cases harranged with
      | cons hb hclose hrest =>
        have hcall := between_call hname hl hclose hm hlen le_rfl hargs hb
        exact ⟨m.stop, hcall.mono hle le_rfl, hrest⟩

theorem expression_locates (d : Dialect) (stop bound : Nat) :
    Locates d text (expression stop bound) := by
  induction bound with
  | zero =>
    intro a ls e rest h hread
    cases hread
  | succ bound ih =>
    intro a ls e rest h hread
    have hsum : Locates d text (sum stop (primary stop (expression stop bound) (bound + 1))
        (bound + 1)) := ((ih.primary hlen).factor hlen).leftGrouped.leftGrouped
    have hlevels : Locates d text (disjunction stop
        (primary stop (expression stop bound) (bound + 1)) (bound + 1)) :=
      (hsum.connected.connected.comparison.negation hlen).connected.connected
    unfold expression at hread
    split at hread
    · cases hread
    · exact hlevels _ _ _ _ h hread

end

end Grammar

/-- In what is read from a text of less than 2 ^ 16 bytes, every node is located in the text. -/
theorem spans_located {text : String} (hlen : byteCount text.toList ≤ 65535)
    (h : Expr.parse d text = .ok e) : e.Located d text.toList := by
  obtain ⟨ls, hls, h⟩ := Outcome.bind_eq_ok.1 h
  have harranged := Grammar.arranged_of_lexemes hls
  obtain ⟨b, hbetween, -⟩ := Grammar.expression_locates hlen d _ _ _ _ _ _ harranged
    (Grammar.wholeExpression_eq_ok h)
  exact hbetween.located

/-- Characters of several bytes, the other word for a truth value, and parentheses that the span of
a sign does not reach behind. -/
theorem spans_located_wide :
    byteCount "été(not (a < 2), true) * -(.5)".toList ≤ 65535 ∧
      ∃ e, Expr.parse .rendered "été(not (a < 2), true) * -(.5)" = .ok e ∧
        e.span = ⟨0, 31⟩ ∧ e.operands.map Expr.span = [⟨0, 24⟩, ⟨27, 31⟩] ∧
        e.Located .rendered "été(not (a < 2), true) * -(.5)".toList := by
  have hlen : byteCount "été(not (a < 2), true) * -(.5)".toList ≤ 65535 := by
    decide +kernel
  have hread : (Expr.parse .rendered "été(not (a < 2), true) * -(.5)").map
      (fun e => (e.span, e.operands.map Expr.span)) =
        .ok (⟨0, 31⟩, [⟨0, 24⟩, ⟨27, 31⟩]) := by
    decide +kernel
  obtain ⟨e, he, hspans⟩ := Outcome.map_eq_ok.1 hread
  obtain ⟨hspan, hoperands⟩ := Prod.mk.inj hspans
  exact ⟨hlen, e, he, hspan, hoperands, spans_located hlen he⟩

end Formulae
