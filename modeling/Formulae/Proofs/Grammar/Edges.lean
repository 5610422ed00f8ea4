import Formulae.Grammar.Expression
import Formulae.Proofs.Grammar.Rules

namespace Formulae

/-- The depth of the loosest level behind which the token may stand; every level has less than
the tokens that may not stand behind anything. -/
def Token.closing : Token → Nat
  | .rightParen | .comma => 0
  | .connective .or | .doubled .or => 1
  | .connective .and | .doubled .and => 2
  | .cmp _ => 4
  | .single .or => 5
  | .single .and => 6
  | .op .add | .op .sub => 7
  | .op .mul | .op .div | .op .mod => 8
  | .op .pow => 10
  | _ => 12

/-- One more than the depth of the tightest level that the token may begin. -/
def Token.opening : Token → Nat
  | .notWord => 3
  | .op .add | .op .sub | .bang => 9
  | .number _ | .ident _ | .truth _ | .leftParen => 12
  | _ => 0

end Formulae

namespace Formulae.Grammar
set_option autoImplicit true

theorem Level.depth_of_operand {l m : Level} (h : l.operand? = some m) :
    m.depth = l.depth + 1 := by
  cases l <;> cases h <;> rfl

/-- The tokens begin with one that may begin the level. -/
def Opens (l : Level) (ts : List Token) : Prop :=
  ∃ t us, ts = t :: us ∧ l.depth < t.opening

theorem Opens.loosen (h : Opens m ts) (hl : l.depth ≤ m.depth) : Opens l ts := by
  obtain ⟨t, ts, rfl, ht⟩ := h
  exact ⟨t, ts, rfl, Nat.lt_of_le_of_lt hl ht⟩

theorem Opens.append (h : Opens m ts) (hl : l.depth ≤ m.depth) : Opens l (ts ++ us) := by
  obtain ⟨t, ts, rfl, ht⟩ := h
  exact ⟨t, ts ++ us, rfl, Nat.lt_of_le_of_lt hl ht⟩

theorem Opens.cons (h : l.depth < t.opening) : Opens l (t :: ts) :=
  ⟨t, ts, rfl, h⟩

theorem Derives.opens (h : Derives d l ts e) : Opens l ts := by
  induction h with
  | operand hm _ ih =>
    have hd := Level.depth_of_operand hm
    exact ih.loosen (by omega)
  | or _ _ _ _ ih => exact ih.append (by decide)
  | and _ _ _ _ ih => exact ih.append (by decide)
  | not _ _ => exact .cons (by decide)
  | compare _ _ _ _ ih => exact ih.append (by decide)
  | singleOr _ _ _ _ ih => exact ih.append (by decide)
  | singleAnd _ _ _ _ ih => exact ih.append (by decide)
  | sum _ _ _ ih _ => exact ih.append (Nat.le_refl _)
  | term _ _ _ ih _ => exact ih.append (Nat.le_refl _)
  | sign hs _ _ => cases hs <;> exact .cons (by decide)
  | power _ _ ih _ => exact ih.append (by decide)
  | call _ _ => exact .cons (by simp [Level.depth, Token.opening])
  | number _ => exact .cons (by simp [Level.depth, Token.opening])
  | var => exact .cons (by simp [Level.depth, Token.opening])
  | truth => exact .cons (by simp [Level.depth, Token.opening])
  | parens _ _ => exact .cons (by simp [Level.depth, Token.opening])

theorem Derives.exists_cons (h : Derives d l (ls.map (·.token)) e) :
    ∃ (t : Lexeme) (ms : List Lexeme), ls = t :: ms ∧ l.depth < t.token.opening := by
  obtain ⟨t, us, hts, ht⟩ := h.opens
  obtain ⟨t, ls, rfl, rfl, -⟩ := List.map_eq_cons_iff.1 hts
  exact ⟨t, ls, rfl, ht⟩

/-- The lexemes begin with one that may stand behind the level, or there are none. -/
def Ends (l : Level) (rest : List Lexeme) : Prop :=
  ∀ x ∈ rest.head?, x.token.closing ≤ l.depth

theorem Ends.tighten (h : Ends l rest) (hl : l.depth ≤ m.depth) : Ends m rest :=
  fun x hx => Nat.le_trans (h x hx) hl

theorem Ends.nil (l : Level) : Ends l [] := by
  intro x hx
  cases hx

theorem Ends.cons {x : Lexeme} (h : x.token.closing ≤ l.depth) : Ends l (x :: rest) := by
  intro y hy
  cases hy
  exact h

/-- The token may begin something or may stand behind something. -/
def Usable (t : Token) : Prop :=
  0 < t.opening ∨ t.closing < 12

theorem usable_links {links : List (Link ω)} (hseps : ∀ x ∈ links, Usable x.sep)
    (hl : ∀ x ∈ links, ∀ t ∈ x.tokens, Usable t) : ∀ t ∈ linkTokens links, Usable t := by
  intro t ht
  obtain ⟨x, hx, ht⟩ := List.mem_flatMap.1 ht
  rcases List.mem_cons.1 ht with rfl | ht
  · exact hseps x hx
  · exact hl x hx t ht

theorem usable_arguments {args : List Part} (h : ∀ a ∈ args, ∀ t ∈ a.tokens, Usable t) :
    ∀ t ∈ argumentTokens trailing args, Usable t := by
  fun_induction argumentTokens trailing args with
  | case1 => simp
  | case2 a _ =>
    rw [List.forall_mem_append, List.forall_mem_singleton]
    exact ⟨h a List.mem_cons_self, .inr (by decide)⟩
  | case3 a _ => exact h a List.mem_cons_self
  | case4 a b as ih =>
    rw [List.forall_mem_cons] at h
    rw [List.forall_mem_append, List.forall_mem_cons]
    exact ⟨h.1, .inr (by decide), ih h.2⟩

theorem usable_behind (ht : 0 < t.opening) (h : ∀ t ∈ ts, Usable t) : ∀ u ∈ t :: ts, Usable u :=
  List.forall_mem_cons.2 ⟨.inl ht, h⟩

theorem usable_between (hl : ∀ t ∈ ts, Usable t) (ht : t.closing < 12) (hr : ∀ t ∈ us, Usable t) :
    ∀ u ∈ ts ++ t :: us, Usable u :=
  List.forall_mem_append.2 ⟨hl, List.forall_mem_cons.2 ⟨.inr ht, hr⟩⟩

theorem usable_parens (h : ∀ t ∈ ts, Usable t) :
    ∀ t ∈ .leftParen :: ts ++ [.rightParen], Usable t :=
  usable_between (usable_behind (by decide) h) (by decide) (by simp)

theorem Derives.usable (h : Derives d l ts e) : ∀ t ∈ ts, Usable t := by
  have hor {op o t} (h : Connects d op t o) : Usable t := by
    cases h <;> cases op <;> exact .inr (by decide)
  have hsingle {op o t} (h : ConnectsSingly d op t o) : Usable t := by
    cases h
    cases op <;> exact .inr (by decide)
  have hcmp {o t} (h : Compares t o) : Usable t := by
    cases h
    exact .inr (by simp [Token.closing])
  induction h with
  | operand _ _ ih => exact ih
  | or _ _ hs _ ih ihl =>
    exact List.forall_mem_append.2 ⟨ih, usable_links (fun x hx => hor (hs x hx)) ihl⟩
  | and _ _ hs _ ih ihl =>
    exact List.forall_mem_append.2 ⟨ih, usable_links (fun x hx => hor (hs x hx)) ihl⟩
  | not _ ih => exact usable_behind (by decide) ih
  | compare _ _ hs _ ih ihl =>
    exact List.forall_mem_append.2 ⟨ih, usable_links (fun x hx => hcmp (hs x hx)) ihl⟩
  | singleOr _ _ hs _ ih ihl =>
    exact List.forall_mem_append.2 ⟨ih, usable_links (fun x hx => hsingle (hs x hx)) ihl⟩
  | singleAnd _ _ hs _ ih ihl =>
    exact List.forall_mem_append.2 ⟨ih, usable_links (fun x hx => hsingle (hs x hx)) ihl⟩
  | sum hop _ _ ihl ihr =>
    apply usable_between ihl _ ihr
    cases hop <;> decide
  | term hop _ _ ihl ihr =>
    apply usable_between ihl _ ihr
    cases hop <;> decide
  | sign hs _ ih =>
    apply usable_behind _ ih
    cases hs <;> decide
  | power _ _ ihl ihr =>
    exact usable_between ihl (by decide) ihr
  | @call trailing f args _ ih =>
    have harguments : ∀ t ∈ argumentTokens trailing args, Usable t := usable_arguments ih
    apply usable_behind (by simp [Token.opening])
    exact usable_parens harguments
  | number _ => exact List.forall_mem_singleton.2 (.inl (by simp [Token.opening]))
  | var => exact List.forall_mem_singleton.2 (.inl (by simp [Token.opening]))
  | truth => exact List.forall_mem_singleton.2 (.inl (by simp [Token.opening]))
  | parens _ ih =>
    exact usable_parens ih

theorem Connects.closing_le {op : BoolOp} (h : Connects d op t o) :
    t.closing ≤ op.precedence := by
  cases h <;> cases o <;> decide

theorem ConnectsSingly.closing_le {op : BoolOp} (h : ConnectsSingly d op t o) :
    t.closing ≤ op.precedence + 4 := by
  cases h
  cases o <;> decide

theorem Connects.connective? {op : BoolOp} (h : Connects d op t o) :
    connective? op t = some o := by
  cases h <;> simp [Grammar.connective?]

theorem ConnectsSingly.single? {op : BoolOp} (h : ConnectsSingly d op t o) :
    single? op t = some o := by
  cases h
  simp [Grammar.single?]

theorem connective?_eq_none {op : BoolOp} (h : t.closing < op.precedence) :
    connective? op t = none := by
  apply if_neg
  rintro (rfl | rfl) <;> cases op <;> exact absurd h (by decide)

theorem single?_eq_none {op : BoolOp} (h : t.closing < op.precedence + 4) :
    single? op t = none := by
  apply if_neg
  rintro rfl
  cases op <;> exact absurd h (by decide)

theorem additive?_eq_none (h : t.closing ≤ 6) : additive? t = none := by
  cases t with
  | op o => cases o <;> first | rfl | exact absurd h (by decide)
  | _ => rfl

theorem multiplicative?_eq_none (h : t.closing ≤ 7) : multiplicative? t = none := by
  cases t with
  | op o => cases o <;> first | rfl | exact absurd h (by decide)
  | _ => rfl

theorem sign?_eq_none (h : 9 < t.opening) : sign? t = none := by
  cases t with
  | op o => cases o <;> exact absurd h (by decide)
  | bang => exact absurd h (by decide)
  | _ => rfl

theorem Signs.sign? (h : Signs d t op) : sign? t = some op := by
  cases h <;> rfl

theorem Compares.comparison? (h : Compares t o) : comparison? t = some o := by
  cases h
  rfl

theorem comparison?_eq_none (h : t.closing ≤ 3) : comparison? t = none := by
  cases t with
  | cmp o => exact absurd h (by simp [Token.closing])
  | _ => rfl

theorem Derives.not_sign (h : Derives d .application (ls.map (·.token)) e) :
    ∃ (t : Lexeme) (ms : List Lexeme), ls = t :: ms ∧ Grammar.sign? t.token = none := by
  obtain ⟨t, ls, rfl, ht⟩ := h.exists_cons
  exact ⟨t, ls, rfl, sign?_eq_none (Nat.lt_trans (by decide) ht)⟩

theorem Derives.not_notWord (h : Derives d .comparison (ls.map (·.token)) e) :
    ∃ (t : Lexeme) (ms : List Lexeme), ls = t :: ms ∧ t.token ≠ .notWord := by
  obtain ⟨t, ls, rfl, ht⟩ := h.exists_cons
  refine ⟨t, ls, rfl, fun hn => ?_⟩
  rw [hn] at ht
  exact absurd ht (by decide)

end Formulae.Grammar
