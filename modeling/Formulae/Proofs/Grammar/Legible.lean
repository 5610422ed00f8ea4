import Formulae.Proofs.Grammar.Recognition
import Formulae.Proofs.Syntax.Operands
import Formulae.Proofs.Token.Spelling

namespace Formulae
open Grammar Outcome
set_option autoImplicit true

/-- A tree that may have been read from a text whose names all have the property. -/
inductive Legible (P : String → Prop) : Expr → Prop
  | number : Decimal.read? s.toList = some n → Legible P (.number s n.toFloat sp)
  | bool : Legible P (.bool b sp)
  | var : P x → Legible P (.var x sp)
  | call : P f → (∀ e ∈ args, Legible P e) → Legible P (.call f args sp)
  | unary : Legible P e → Legible P (.unary op e sp)
  | binary : Legible P l → Legible P r → Legible P (.binary op l r sp)
  | compare : Legible P e → rest ≠ [] → (∀ x ∈ rest, Legible P x.2) →
      Legible P (.compare e rest sp)
  | logical : 2 ≤ es.length → (∀ e ∈ es, Legible P e) → Legible P (.logical op es sp)

theorem Legible.of_eraseSpans (h : Legible P e.eraseSpans) : Legible P e := by
  induction e using Expr.induct with
  | number s x sp =>
    cases h with
    | number hs => exact .number hs
  | bool => exact .bool
  | var x sp =>
    cases h with
    | var hx => exact .var hx
  | call f args sp ih =>
    cases h with
    | call hf hargs =>
      rw [Expr.eraseSpansOfList_eq, List.forall_mem_map] at hargs
      exact .call hf fun e he => ih e he (hargs e he)
  | unary op e sp ih =>
    cases h with
    | unary he => exact .unary (ih he)
  | binary op l r sp ihl ihr =>
    cases h with
    | binary hl hr => exact .binary (ihl hl) (ihr hr)
  | compare e rest sp ihe ihr =>
    cases h with
    | compare he hne hrest =>
      rw [Expr.eraseSpansOfRest_eq] at hne
      rw [Expr.eraseSpansOfRest_eq, List.forall_mem_map] at hrest
      exact .compare (ihe he) (by simpa using hne) fun x hx => ihr x hx (hrest x hx)
  | logical op es sp ih =>
    cases h with
    | logical hlen hes =>
      rw [Expr.eraseSpansOfList_eq, List.length_map] at hlen
      rw [Expr.eraseSpansOfList_eq, List.forall_mem_map] at hes
      exact .logical hlen fun e he => ih e he (hes e he)

theorem Legible.imp (h : Legible P e)
    (hPQ : ∀ x, x ∈ e.identifiers ∨ x ∈ e.functions → P x → Q x) : Legible Q e := by
  induction h with
  | number hs => exact .number hs
  | bool => exact .bool
  | var hx => exact .var (hPQ _ (.inl (by simp [Expr.identifiers])) hx)
  | call hf _ ih =>
    simp only [Expr.identifiers, Expr.functions, Expr.mem_identifiersOfList, mem_union_iff,
      mem_singleton_iff, Expr.mem_functionsOfList] at hPQ
    apply Legible.call (hPQ _ (.inr (.inl rfl)) hf)
    intro e he
    apply ih e he
    intro x hx
    exact hPQ x (hx.imp (fun hx => ⟨e, he, hx⟩) fun hx => .inr ⟨e, he, hx⟩)
  | unary _ ih => exact .unary (ih hPQ)
  | binary _ _ ihl ihr =>
    simp only [Expr.identifiers, Expr.functions, mem_union_iff] at hPQ
    apply Legible.binary
    · exact ihl fun x hx => hPQ x (hx.imp .inl .inl)
    · exact ihr fun x hx => hPQ x (hx.imp .inr .inr)
  | compare _ hne _ ihe ihr =>
    simp only [Expr.identifiers, Expr.functions, Expr.mem_identifiersOfRest, mem_union_iff,
      Expr.mem_functionsOfRest] at hPQ
    apply Legible.compare _ hne
    · intro y hy
      apply ihr y hy
      intro x hx
      exact hPQ x (hx.imp (fun hx => .inr ⟨y, hy, hx⟩) fun hx => .inr ⟨y, hy, hx⟩)
    · exact ihe fun x hx => hPQ x (hx.imp .inl .inl)
  | logical hlen _ ih =>
    simp only [Expr.identifiers, Expr.functions, Expr.mem_identifiersOfList,
      Expr.mem_functionsOfList] at hPQ
    apply Legible.logical hlen
    intro e he
    apply ih e he
    intro x hx
    exact hPQ x (hx.imp (fun hx => ⟨e, he, hx⟩) fun hx => ⟨e, he, hx⟩)

theorem Legible.operand (h : Legible P e) (he : e' ∈ e.operands) : Legible P e' := by
  cases h with
  | number => cases he
  | bool => cases he
  | var => cases he
  | call _ hargs => exact hargs e' he
  | unary h =>
    rw [List.mem_singleton.1 he]
    exact h
  | binary hl hr =>
    have hall := List.forall_mem_cons.2 ⟨hl, List.forall_mem_singleton.2 hr⟩
    exact hall e' he
  | compare h _ hrest =>
    have hall := List.forall_mem_cons.2 ⟨h, List.forall_mem_map.2 hrest⟩
    exact hall e' he
  | logical _ hes => exact hes e' he

theorem Legible.named (h : Legible P e) (hx : x ∈ e.identifiers ∨ x ∈ e.functions) : P x := by
  induction e using Expr.inductOperands with
  | node e ih =>
    rcases Expr.mem_identifiers_or_mem_functions.1 hx with (hx | hx) | ⟨e', he', hx⟩
    · cases h <;> cases hx
      assumption
    · cases h <;> cases hx
      assumption
    · exact ih e' he' (h.operand he') hx

theorem mem_argumentTokens {args : List Part} (ha : a ∈ args) (ht : t ∈ a.tokens) :
    t ∈ argumentTokens trailing args := by
  fun_induction argumentTokens trailing args with
  | case1 => cases ha
  | case2 b _ =>
    rw [List.mem_singleton.1 ha] at ht
    exact List.mem_append_left _ ht
  | case3 b _ =>
    rwa [List.mem_singleton.1 ha] at ht
  | case4 b c as ih =>
    rcases List.mem_cons.1 ha with rfl | ha
    · exact List.mem_append_left _ ht
    · exact List.mem_append_right _ (List.mem_cons_of_mem _ (ih ha))

theorem legible_logical {links : List (Link BoolOp)} (he : Legible P e) (hne : links ≠ [])
    (hl : ∀ x ∈ links, Legible P x.tree) :
    Legible P (.logical op (e :: links.map (·.tree)) sp) := by
  apply Legible.logical _ (List.forall_mem_cons.2 ⟨he, List.forall_mem_map.2 hl⟩)
  have hpos := List.length_pos_iff.2 hne
  simp only [List.length_cons, List.length_map]
  omega

/-- What derives from tokens is legible, with the names that are among the tokens. -/
theorem Grammar.Derives.legible (h : Derives d l ts e) (hP : ∀ x, .ident x ∈ ts → P x) :
    Legible P e := by
  have hlinks {ω : Type} {ts : List Token} {links : List (Link ω)}
      (hP : ∀ x, .ident x ∈ ts ++ linkTokens links → P x) :
      ∀ x ∈ links, ∀ y, .ident y ∈ x.tokens → P y :=
    fun x hx y hy => hP y (List.mem_append_right _ (mem_linkTokens.2 ⟨x, hx, .inr hy⟩))
  induction h with
  | operand _ _ ih => exact ih hP
  | or _ hne _ _ ih ihl =>
    exact legible_logical (ih fun x hx => hP x (List.mem_append_left _ hx)) hne fun x hx =>
      ihl x hx (hlinks hP x hx)
  | and _ hne _ _ ih ihl =>
    exact legible_logical (ih fun x hx => hP x (List.mem_append_left _ hx)) hne fun x hx =>
      ihl x hx (hlinks hP x hx)
  | not _ ih => exact .unary (ih fun x hx => hP x (List.mem_cons_of_mem _ hx))
  | compare _ hne _ _ ih ihl =>
    apply Legible.compare (ih fun x hx => hP x (List.mem_append_left _ hx)) (by simpa using hne)
    exact List.forall_mem_map.2 fun x hx => ihl x hx (hlinks hP x hx)
  | singleOr _ hne _ _ ih ihl =>
    exact legible_logical (ih fun x hx => hP x (List.mem_append_left _ hx)) hne fun x hx =>
      ihl x hx (hlinks hP x hx)
  | singleAnd _ hne _ _ ih ihl =>
    exact legible_logical (ih fun x hx => hP x (List.mem_append_left _ hx)) hne fun x hx =>
      ihl x hx (hlinks hP x hx)
  | sum _ _ _ ihl ihr =>
    exact .binary (ihl fun x hx => hP x (List.mem_append_left _ hx))
      (ihr fun x hx => hP x (List.mem_append_right _ (List.mem_cons_of_mem _ hx)))
  | term _ _ _ ihl ihr =>
    exact .binary (ihl fun x hx => hP x (List.mem_append_left _ hx))
      (ihr fun x hx => hP x (List.mem_append_right _ (List.mem_cons_of_mem _ hx)))
  | sign _ _ ih => exact .unary (ih fun x hx => hP x (List.mem_cons_of_mem _ hx))
  | power _ _ ihl ihr =>
    exact .binary (ihl fun x hx => hP x (List.mem_append_left _ hx))
      (ihr fun x hx => hP x (List.mem_append_right _ (List.mem_cons_of_mem _ hx)))
  | call _ ih =>
    apply Legible.call (hP _ (by simp))
    rw [List.forall_mem_map]
    intro a ha
    apply ih a ha
    intro x hx
    apply hP x
    exact List.mem_append_left _
      (List.mem_cons_of_mem _ (List.mem_cons_of_mem _ (mem_argumentTokens ha hx)))
  | number hs => exact .number hs
  | var => exact .var (hP _ List.mem_cons_self)
  | truth => exact .bool
  | parens _ ih => exact ih fun x hx => hP x (by simp [hx])

theorem Token.ne_ident_of_mem_symbols (h : t ∈ symbols d) (x : String) : t ≠ .ident x := by
  rintro rfl
  cases d <;> simp [symbols] at h

theorem Token.ne_ident_of_mem_keywords (h : (word, t) ∈ keywords ++ renderedKeywords)
    (x : String) : t ≠ .ident x := by
  rintro rfl
  simp [keywords, renderedKeywords] at h

theorem Token.Scanned.isName (h : Scanned d (.ident x)) : IsName d x := by
  generalize ht : Token.ident x = t at h
  cases h with
  | symbol hmem => exact absurd ht.symm (ne_ident_of_mem_symbols hmem x)
  | @word c cs hc hcs =>
    rcases ofWord_cases d (.ofList (c :: cs)) with hw | hw | hw
    · exact absurd ht.symm (ne_ident_of_mem_keywords hw x)
    · rw [hw] at ht
      cases ht
    · have hx := hw
      rw [← ht] at hx
      cases hx
      exact ⟨hw, c, cs, String.toList_ofList, hc, hcs⟩
  | number => cases ht
  | dot => cases ht

theorem Expr.legible_of_wholeExpression (hls : ∀ x ∈ ls, Token.Scanned d x.token)
    (h : wholeExpression stop ls = .ok e) : Legible (Token.IsName d) e := by
  have hder := wholeExpression_sound (fun x hx => (hls x hx).inDialect) h
  apply Legible.of_eraseSpans
  apply hder.legible
  intro x hx
  obtain ⟨y, hy, hx⟩ := List.mem_map.1 hx
  exact (hx ▸ hls y hy).isName

theorem Expr.legible_of_parse {s : String} (h : Expr.parse d s = .ok e) :
    Legible (Token.IsName d) e := by
  obtain ⟨ls, hls, h⟩ := bind_eq_ok.1 h
  exact legible_of_wholeExpression (fun x hx => Token.lexemes_scanned hls hx) h

end Formulae
