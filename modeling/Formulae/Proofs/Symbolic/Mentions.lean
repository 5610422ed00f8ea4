import Formulae.Proofs.Grammar.Roles
import Formulae.Proofs.Symbolic.RoundTrip
import Formulae.Proofs.Symbolic.Writing

namespace Formulae
open Grammar Outcome
open Token (IsName Spells Spaced symbols)
set_option autoImplicit true

namespace Grammar

/-- The text is read as tokens; the names before parentheses have the property `F`, all others have
the property `V`. -/
def Mentions (d : Dialect) (V F : String → Prop) (s : String) : Prop :=
  ∃ ts, Spells d s.toList ts ∧ Roles V F ts

variable {d : Dialect} {V F : String → Prop}

theorem Written.mentions (h : Written d l s e) (he : e.Named V F) : Mentions d V F s := by
  obtain ⟨ts, hd, hs⟩ := h
  exact ⟨ts, hs, hd.roles_iff.2 he⟩

/-- If the text is read as an expression, its names are in the expression. -/
theorem Mentions.named (hs : Mentions d V F s) (h : Expr.parse d s = .ok e) : e.Named V F := by
  obtain ⟨ts, hs, hroles⟩ := hs
  obtain ⟨ls, hls, hts⟩ := hs.lexes.lexemes
  rw [Expr.parse, hls, ok_bind] at h
  have hscanned : ∀ x ∈ ls, Token.Scanned d x.token := fun x hx => Token.lexemes_scanned hls hx
  have hder := wholeExpression_sound (fun x hx => (hscanned x hx).inDialect) h
  exact (hder.roles_iff.1 (hts ▸ hroles)).of_eraseSpans

namespace Mentions

theorem between (hs : Mentions d V F s) (ht : Spaced d t) (hparts : Parts t)
    (hs' : Mentions d V F s') : Mentions d V F (s ++ " " ++ t.spelling ++ " " ++ s') := by
  obtain ⟨ts, hs, hts⟩ := hs
  obtain ⟨us, hs', hus⟩ := hs'
  exact ⟨_, by simpa using hs.between ht hs', (roles_between hparts).2 ⟨hts, hus⟩⟩

theorem binary (op : BinaryOp) (hs : Mentions d V F s) (hs' : Mentions d V F s') :
    Mentions d V F (s ++ " " ++ op.symbol ++ " " ++ s') := by
  have hop : Token.op op ∈ symbols d := by cases d <;> cases op <;> decide
  have hall := hs.between (.inl hop) (parts_op op) hs'
  rwa [Token.spelling] at hall

theorem connective (op : BoolOp) (hs : Mentions d V F s) (hs' : Mentions d V F s') :
    Mentions d V F (s ++ (" " ++ op.word ++ " ") ++ s') := by
  have hall := hs.between (.inr ⟨op, rfl⟩) ⟨nofun, nofun⟩ hs'
  rw [Token.spelling] at hall
  simpa only [String.append_assoc] using hall

theorem comparison (op : CmpOp) (hs : Mentions d V F s) (hs' : Mentions d V F s') :
    Mentions d V F (s ++ " " ++ op.symbol ++ " " ++ s') := by
  have hop : Token.cmp op ∈ symbols d := by cases d <;> cases op <;> decide
  have hall := hs.between (.inl hop) ⟨nofun, nofun⟩ hs'
  rwa [Token.spelling] at hall

theorem tight (hop : op ∈ [BinaryOp.mul, .div, .pow]) (hs : Mentions d V F s)
    (hs' : Mentions d V F s') : Mentions d V F (s ++ op.symbol ++ s') := by
  obtain ⟨ts, hs, hts⟩ := hs
  obtain ⟨us, hs', hus⟩ := hs'
  have htight : Token.op op ∈ [Token.op .mul, .op .div, .op .pow] := by simpa using hop
  exact ⟨_, by simpa [Token.spelling] using hs.tight htight hs',
    (roles_between (parts_op op)).2 ⟨hts, hus⟩⟩

theorem times (hs : Mentions d V F s) (hs' : Mentions d V F s') :
    Mentions d V F (s ++ "*" ++ s') := by
  have hmul : BinaryOp.mul ∈ [BinaryOp.mul, .div, .pow] := by decide
  have hall := hs.tight hmul hs'
  rwa [BinaryOp.symbol] at hall

theorem dividedBy (hs : Mentions d V F s) (hs' : Mentions d V F s') :
    Mentions d V F (s ++ "/" ++ s') := by
  have hdiv : BinaryOp.div ∈ [BinaryOp.mul, .div, .pow] := by decide
  have hall := hs.tight hdiv hs'
  rwa [BinaryOp.symbol] at hall

theorem raised (hs : Mentions d V F s) (hs' : Mentions d V F s') :
    Mentions d V F (s ++ "**" ++ s') := by
  have hpow : BinaryOp.pow ∈ [BinaryOp.mul, .div, .pow] := by decide
  have hall := hs.tight hpow hs'
  rwa [BinaryOp.symbol] at hall

theorem comma (hs : Mentions d V F s) (hs' : Mentions d V F s') :
    Mentions d V F (s ++ ", " ++ s') := by
  obtain ⟨ts, hs, hts⟩ := hs
  obtain ⟨us, hs', hus⟩ := hs'
  exact ⟨_, by simpa using hs.comma hs', (roles_between parts_comma).2 ⟨hts, hus⟩⟩

theorem parens (hs : Mentions d V F s) : Mentions d V F ("(" ++ s ++ ")") := by
  obtain ⟨ts, hs, hts⟩ := hs
  exact ⟨_, by simpa using hs.parens, roles_parens.2 hts⟩

theorem enclose (hs : Mentions d V F s) (wanted : Bool) :
    Mentions d V F (Symbolic.enclose wanted s) := by
  cases wanted with
  | true => exact hs.parens
  | false => exact hs

theorem minus (hs : Mentions d V F s) : Mentions d V F ("-" ++ s) := by
  obtain ⟨ts, hs, hts⟩ := hs
  have hminus : Token.op .sub ∈ symbols d := by cases d <;> decide
  exact ⟨_, by simpa using hs.signed hminus (c := '-') (by decide) (by decide),
    (roles_cons_of_ne (by nofun)).2 hts⟩

theorem signed (hs : Mentions d V F s) (p : Prop) [Decidable p] :
    Mentions d V F ((if p then "-" else "") ++ s) := by
  split
  · exact hs.minus
  · rwa [String.empty_append]

theorem not (hs : Mentions d V F s) : Mentions d V F ("not " ++ s) := by
  obtain ⟨ts, hs, hts⟩ := hs
  exact ⟨_, by simpa using hs.negated, (roles_cons_of_ne (by nofun)).2 hts⟩

/-- Texts between separators, if two texts may be put together so. -/
theorem intercalate (hsep : ∀ {s s'}, Mentions d V F s → Mentions d V F s' →
      Mentions d V F (s ++ sep ++ s')) {texts : List String} (hne : texts ≠ [])
    (h : ∀ s ∈ texts, Mentions d V F s) : Mentions d V F (sep.intercalate texts) := by
  induction texts with
  | nil => exact absurd rfl hne
  | cons s texts ih =>
    rw [List.forall_mem_cons] at h
    cases texts with
    | nil => simpa using h.1
    | cons s' texts =>
      rw [String.intercalate_cons_cons]
      exact hsep h.1 (ih (by simp) h.2)

theorem call {texts : List String} (hname : IsName d f) (hf : F f)
    (h : ∀ s ∈ texts, Mentions d V F s) :
    Mentions d V F (f ++ "(" ++ ", ".intercalate texts ++ ")") := by
  cases texts with
  | nil =>
    have hroles : Roles V F (.ident f :: .leftParen :: [] ++ [.rightParen]) :=
      roles_call.2 ⟨hf, trivial⟩
    exact ⟨_, by simpa using hname.spells.appliedToNone, hroles⟩
  | cons s texts =>
    obtain ⟨ts, hs, hts⟩ := intercalate (fun hs hs' => hs.comma hs') (by simp) h
    exact ⟨_, by simpa using hname.spells.applied hs, roles_call.2 ⟨hf, hts⟩⟩

end Mentions

end Grammar

namespace Symbolic

/-- The number that a node writes itself, or leaves out if it is the coefficient one. -/
def ownNumber? : Symbolic → Option Float
  | number x => some x
  | product xs => some (coefficientOf xs).1
  | _ => none

/-- A tree is written with the number, be it its own or that of a part. -/
inductive Writes (c : Float) : Symbolic → Prop
  | own : s.ownNumber? = some c → Writes c s
  | part : p ∈ s.parts → Writes c p → Writes c s

variable {d : Dialect} {V F : String → Prop} {text : Symbolic → String}

/-- Infinity and what is not a number are written as words that are names. -/
theorem isName_of_not_finite {x : Float} (h : x.isFinite = false) :
    IsName d (numberText x.abs) := by
  have hword : numberText x.abs ∈ ["NaN", "inf"] := by
    rcases Number.not_finite_cases h with rfl | rfl | rfl <;> decide +kernel
  have hnan : "NaN".toList = 'N' :: ['a', 'N'] := by decide +kernel
  have hinf : "inf".toList = 'i' :: ['n', 'f'] := by decide +kernel
  simp only [List.mem_cons, List.not_mem_nil, or_false] at hword
  rcases hword with hword | hword <;> rw [hword]
  · exact ⟨by cases d <;> decide, _, _, hnan, by decide, by decide⟩
  · exact ⟨by cases d <;> decide, _, _, hinf, by decide, by decide⟩

/-- The absolute value of a number is written as a numeral or as a name. -/
theorem mentions_abs {x : Float} (h : x.isFinite = false → V (numberText x.abs)) :
    Mentions d V F (numberText x.abs) := by
  cases hx : x.isFinite with
  | true => exact (written_literal hx).mentions Expr.named_number
  | false => exact (written_var (isName_of_not_finite hx)).mentions (Expr.named_var_iff.2 (h hx))

theorem mentions_numberText {x : Float} (h : x.isFinite = false → V (numberText x.abs)) :
    Mentions d V F (numberText x) := by
  rw [numberText_eq]
  exact (mentions_abs h).signed _

theorem mentions_later {ys : List Symbolic} (hs : Mentions d V F s)
    (hys : ∀ y ∈ ys, Mentions d V F (text y.signless)) :
    Mentions d V F (s ++ String.join (ys.map (laterText text))) := by
  induction ys generalizing s with
  | nil => simpa using hs
  | cons y ys ih =>
    rw [List.forall_mem_cons] at hys
    have hall := ih (hs.binary y.signOf (hys.1.enclose (y.signless.precedence ≤ 5))) hys.2
    simpa [laterText, String.append_assoc] using hall

theorem inOrder_ne_nil {xs : List Symbolic} (h : xs ≠ []) : inOrder xs ≠ [] := by
  obtain ⟨x, hx⟩ := List.exists_mem_of_ne_nil xs h
  cases hnumber : x.isNumber with
  | true => exact List.ne_nil_of_mem (List.mem_append_right _ (List.mem_filter.2 ⟨hx, hnumber⟩))
  | false =>
    exact List.ne_nil_of_mem (List.mem_append_left _ (List.mem_filter.2 ⟨hx, by simp [hnumber]⟩))

theorem mentions_sumText {xs : List Symbolic} (hne : xs ≠ [])
    (h : ∀ p ∈ sumParts xs, Mentions d V F (text p)) : Mentions d V F (sumText text xs) := by
  cases xs with
  | nil => exact absurd rfl hne
  | cons x ys =>
    rw [sumParts, List.forall_mem_cons, List.forall_mem_map] at h
    exact mentions_later h.1 h.2

theorem mentions_product {c : Float} {factors divisors : List String}
    (hc : c.isFinite = false → V (numberText c.abs)) (hfactors : ∀ s ∈ factors, Mentions d V F s)
    (hdivisors : ∀ s ∈ divisors, Mentions d V F s) :
    Mentions d V F (productText c factors divisors) := by
  have htimes {texts : List String} (hne : texts ≠ []) (h : ∀ s ∈ texts, Mentions d V F s) :
      Mentions d V F ("*".intercalate texts) :=
    .intercalate (fun hs hs' => hs.times hs') hne h
  have habove : Mentions d V F ((if c < 0 then "-" else "") ++ "*".intercalate
      (if (c.abs != 1 || factors.isEmpty) = true then numberText c.abs :: factors
        else factors)) := by
    refine (htimes ?_ ?_).signed _
    · split
      · simp
      · next hunit =>
        rintro rfl
        simp at hunit
    · split
      · exact List.forall_mem_cons.2 ⟨mentions_abs hc, hfactors⟩
      · exact hfactors
  match divisors, hdivisors with
  | [], _ => simpa only [productText, String.append_empty] using habove
  | [t], h =>
    have hall := habove.dividedBy (h t List.mem_cons_self)
    simpa only [productText, String.append_assoc] using hall
  | t :: t' :: ts, h =>
    have hall := habove.dividedBy (htimes (by simp) h).parens
    have hparens (u : String) : "/(" ++ (u ++ ")") = "/" ++ ("(" ++ (u ++ ")")) := by
      apply String.toList_injective
      simp
    simpa only [productText, String.append_assoc, hparens] using hall

theorem mentions_quotient {xs : List Symbolic}
    (hc : (coefficientOf xs).1.isFinite = false → V (numberText (coefficientOf xs).1.abs))
    (h : ∀ p ∈ quotientParts xs, Mentions d V F (text p)) :
    Mentions d V F (quotientText text xs) := by
  rw [quotientParts, List.forall_mem_append] at h
  apply mentions_product hc
  · exact List.forall_mem_map.2 fun x hx => (h.1 x hx).enclose _
  · exact List.forall_mem_map.2 fun x hx => (h.2 x hx).enclose _

theorem mentions_power {b e : Symbolic} (hsqrt : F "sqrt")
    (h : ∀ p ∈ (power b e).parts, Mentions d V F (text p)) :
    Mentions d V F (nodeText text (power b e)) := by
  rw [parts] at h
  rw [nodeText]
  split
  · next hroot =>
    rw [if_pos hroot, List.forall_mem_singleton] at h
    have hcall := Mentions.call (isName_sqrt d) hsqrt (List.forall_mem_singleton.2 h)
    simpa using hcall
  · next hroot =>
    rw [if_neg hroot] at h
    split
    · next hneg =>
      rw [if_pos hneg] at h
      exact mentions_quotient (fun hone => absurd hone (by simp [coefficientOf, isFinite_one])) h
    · next hpos =>
      rw [if_neg hpos, List.forall_mem_cons, List.forall_mem_singleton] at h
      exact (h.1.enclose _).raised (h.2.enclose _)

/-- The text of a node has the names of the node and of its parts, and the words for its number. -/
theorem mentions_node (hs : Formed (fun x => IsName d x ∧ V x) (fun f => IsName d f ∧ F f) s)
    (hsqrt : F "sqrt")
    (hnumber : ∀ c, s.ownNumber? = some c → c.isFinite = false → V (numberText c.abs))
    (hparts : ∀ p ∈ s.parts, Mentions d V F (text p)) : Mentions d V F (nodeText text s) := by
  cases hs with
  | number => exact mentions_numberText (hnumber _ rfl)
  | @truth b => exact (written_truth d b).mentions Expr.named_bool
  | symbol hx => exact (written_var hx.1).mentions (Expr.named_var_iff.2 hx.2)
  | sum hne =>
    rw [parts] at hparts
    exact mentions_sumText (inOrder_ne_nil hne) hparts
  | product => exact mentions_quotient (hnumber _ rfl) hparts
  | power => exact mentions_power hsqrt hparts
  | @remainder x y =>
    rw [parts, List.forall_mem_cons, List.forall_mem_singleton] at hparts
    have hmod := (hparts.1.enclose (x.precedence < 6)).binary .mod
      (hparts.2.enclose (y.precedence ≤ 6))
    simpa [nodeText, BinaryOp.symbol, String.append_assoc] using hmod
  | call hf => exact .call hf.1 hf.2 (List.forall_mem_map.2 hparts)
  | @relation x y op =>
    rw [parts, List.forall_mem_cons, List.forall_mem_singleton] at hparts
    exact (hparts.1.enclose _).comparison op (hparts.2.enclose _)
  | negation =>
    rw [parts, List.forall_mem_singleton] at hparts
    exact (hparts.enclose _).not
  | @logical xs op hlen =>
    rw [parts] at hparts
    have hne : xs ≠ [] := by
      rintro rfl
      simp at hlen
    refine .intercalate (fun hs hs' => hs.connective op hs') (by simpa using hne) ?_
    exact List.forall_mem_map.2 fun x hx => (hparts x hx).enclose _

/-- The names in the text of a tree are those of the tree, `sqrt`, and the words for numbers that
are not finite. By strong induction on what the tree costs to write. -/
theorem mentions_text {s : Symbolic}
    (hs : Formed (fun x => IsName d x ∧ V x) (fun f => IsName d f ∧ F f) s) (hsqrt : F "sqrt")
    (hnumbers : ∀ c, s.Writes c → c.isFinite = false → V (numberText c.abs)) :
    Mentions d V F s.text := by
  induction hn : s.writingCost using Nat.strongRecOn generalizing s with
  | ind n ih =>
    subst hn
    rw [text_eq_nodeText]
    refine mentions_node hs hsqrt (fun c hc => hnumbers c (.own hc)) fun p hp => ?_
    exact ih _ (writingCost_lt hp) (hs.parts p hp) (fun c hc => hnumbers c (.part hp hc)) rfl

end Symbolic

/-- If the text of a simplified expression is read again, its variables are variables of the
expression or words for numbers that are not finite, and its functions are functions of the
expression or `sqrt`. -/
theorem simplified_text_names (h : Expr.parse .equation code = .ok e)
    (h' : Expr.parse .equation e.symbolic.text = .ok e') :
    simplify code = .ok e.symbolic.text ∧
      (∀ x ∈ e'.identifiers, x ∈ e.identifiers ∨
        ∃ c, e.symbolic.Writes c ∧ c.isFinite = false ∧ x = Symbolic.numberText c.abs) ∧
      ∀ f ∈ e'.functions, f ∈ e.functions ∨ f = "sqrt" := by
  have hlegible := Expr.legible_of_parse h
  have hnamed : e.Named
      (fun x => IsName .equation x ∧ (x ∈ e.identifiers ∨
        ∃ c, e.symbolic.Writes c ∧ c.isFinite = false ∧ x = Symbolic.numberText c.abs))
      (fun f => IsName .equation f ∧ (f ∈ e.functions ∨ f = "sqrt")) :=
    ⟨fun x hx => ⟨hlegible.named (.inl hx), .inl hx⟩,
      fun f hf => ⟨hlegible.named (.inr hf), .inl hf⟩⟩
  have htext := Symbolic.mentions_text hnamed.formed (.inr rfl)
    fun c hc hfinite => .inr ⟨c, hc, hfinite, rfl⟩
  exact ⟨simplify_eq_ok h, htext.named h'⟩

/-- A product that is too great for a double is read as a variable, and a power as a call. -/
theorem simplified_text_names_infinite :
    ∃ e e', Expr.parse .equation "x**0.5 + 1e308*10" = .ok e ∧
      e.identifiers.toList = ["x"] ∧ e.functions.toList = [] ∧
      Expr.parse .equation e.symbolic.text = .ok e' ∧
      e'.identifiers.toList = ["inf", "x"] ∧ e'.functions.toList = ["sqrt"] ∧
      (∀ x ∈ e'.identifiers, x ∈ e.identifiers ∨
        ∃ c, e.symbolic.Writes c ∧ c.isFinite = false ∧ x = Symbolic.numberText c.abs) ∧
      ∀ f ∈ e'.functions, f ∈ e.functions ∨ f = "sqrt" := by
  have hread : (Expr.parse .equation "x**0.5 + 1e308*10").map (fun e =>
      (e.identifiers.toList, e.functions.toList,
        (Expr.parse .equation e.symbolic.text).toOption.map fun e' =>
          (e'.identifiers.toList, e'.functions.toList))) =
      .ok (["x"], [], some (["inf", "x"], ["sqrt"])) := by
    decide +kernel
  obtain ⟨e, he, hnames⟩ := map_eq_ok.1 hread
  simp only [Prod.mk.injEq, Option.map_eq_some_iff, toOption_eq_some] at hnames
  obtain ⟨hvars, hfunctions, e', he', hvars', hfunctions'⟩ := hnames
  exact ⟨e, e', he, hvars, hfunctions, he', hvars', hfunctions', (simplified_text_names he he').2⟩

/-- A literal that is too great for a double becomes a variable that the expression does not
have. -/
theorem simplified_literal_becomes_variable :
    (Expr.parse .equation "x + 1e999").map (fun e => e.identifiers.toList) = .ok ["x"] ∧
      simplify "x + 1e999" = .ok "x + inf" ∧
      (Expr.parse .equation "x + inf").map (fun e => e.identifiers.toList) =
        .ok ["inf", "x"] := by
  decide +kernel

end Formulae
