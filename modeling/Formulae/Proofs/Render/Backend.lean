import Formulae.Proofs.Grammar.Legible
import Formulae.Proofs.Grammar.Written
import Formulae.Proofs.Number.Decimal
import Formulae.Render.Target

namespace Formulae
open Grammar
open Token (IsName)
set_option autoImplicit true

namespace Expr

/-- The comparisons of a chain one by one, each with both operands. -/
def pairs (left : Expr) : List (CmpOp × Expr) → List (Expr × CmpOp × Expr)
  | [] => []
  | (op, right) :: rest => (left, op, right) :: pairs right rest

/-- One comparison as it is, more of them as operands of a connective. -/
def conjunctionTree : List Expr → Expr
  | [pair] => pair
  | pairs => .logical .and pairs .zero

mutual

/-- The tree that the text for a backend is read as. -/
def backendTree (b : Backend) : Expr → Expr
  | number s x _ => .number (b.number s) x .zero
  | bool v _ => .bool v .zero
  | var x _ => .var x .zero
  | call f args _ => .call f (backendTrees b args) .zero
  | unary .not e _ =>
    match b with
    | .array => .call "logical_not" [backendTree b e] .zero
    | .cpp => .unary .not (backendTree b e) .zero
  | unary op e _ => .unary op (backendTree b e) .zero
  | binary op l r _ =>
    if b.isBetween op then .binary op (backendTree b l) (backendTree b r) .zero
    else .call (Backend.functionName op) [backendTree b l, backendTree b r] .zero
  | compare e rest _ => conjunctionTree (pairTrees b (backendTree b e) rest)
  | logical op es _ => .logical op (backendTrees b es) .zero

def backendTrees (b : Backend) : List Expr → List Expr
  | [] => []
  | e :: es => backendTree b e :: backendTrees b es

/-- The comparisons of a chain one by one, given the tree of the operand before them. -/
def pairTrees (b : Backend) (left : Expr) : List (CmpOp × Expr) → List Expr
  | [] => []
  | (op, e) :: rest =>
    .compare left [(op, backendTree b e)] .zero :: pairTrees b (backendTree b e) rest

end

theorem backendTexts_eq (b : Backend) (es : List Expr) :
    backendTexts b es = es.map (backendText b) := by
  induction es with
  | nil => rfl
  | cons e es ih => simp only [backendTexts, ih, List.map_cons]

theorem backendTrees_eq (b : Backend) (es : List Expr) :
    backendTrees b es = es.map (backendTree b) := by
  induction es with
  | nil => rfl
  | cons e es ih => simp only [backendTrees, ih, List.map_cons]

def operandText (b : Backend) (e : Expr) : String :=
  parenthesize CmpOp.operandLevel e (e.backendText b)

theorem pairTexts_eq (b : Backend) (e : Expr) (rest : List (CmpOp × Expr)) :
    pairTexts b (e.operandText b) rest = (pairs e rest).map fun x =>
      x.1.operandText b ++ " " ++ x.2.1.symbol ++ " " ++ x.2.2.operandText b := by
  induction rest generalizing e with
  | nil => rfl
  | cons x rest ih =>
    rw [pairs, List.map_cons, ← ih]
    rfl

theorem pairTrees_eq (b : Backend) (e : Expr) (rest : List (CmpOp × Expr)) :
    pairTrees b (e.backendTree b) rest = (pairs e rest).map fun x =>
      .compare (x.1.backendTree b) [(x.2.1, x.2.2.backendTree b)] .zero := by
  induction rest generalizing e with
  | nil => rfl
  | cons x rest ih => simp only [pairTrees, pairs, List.map_cons, ih]

theorem mem_pairs (h : x ∈ pairs e rest) :
    (x.1 = e ∨ ∃ y ∈ rest, x.1 = y.2) ∧ ∃ y ∈ rest, x.2.2 = y.2 := by
  induction rest generalizing e with
  | nil => cases h
  | cons y rest ih =>
    rcases List.mem_cons.1 h with rfl | h
    · exact ⟨.inl rfl, y, List.mem_cons_self, rfl⟩
    · obtain ⟨hl, z, hz, hr⟩ := ih h
      refine ⟨.inr ?_, z, List.mem_cons_of_mem _ hz, hr⟩
      rcases hl with hl | ⟨w, hw, hl⟩
      · exact ⟨y, List.mem_cons_self, hl⟩
      · exact ⟨w, List.mem_cons_of_mem _ hw, hl⟩

/-- The level of the text for a backend. What binds less tightly than a sum never stands as an
operand without parentheses. -/
def backendLevel (e : Expr) : Level :=
  if e.precedence < 5 then .disjunction else .ofPrecedence e.precedence

theorem backendLevel_depth (e : Expr) : e.backendLevel.depth ≤ Level.application.depth := by
  unfold backendLevel
  split
  · exact Nat.zero_le _
  · exact (Level.depth_ofPrecedence_mono (Nat.le_add_right _ 9)).trans (by
      have htop : Level.ofPrecedence (e.precedence + 9) = .application := rfl
      rw [htop])

end Expr

theorem isName_logical_not : IsName .rendered "logical_not" :=
  ⟨by decide, 'l', "ogical_not".toList, by decide +kernel, by decide, by decide +kernel⟩

theorem isName_functionName (op : BinaryOp) : IsName .rendered (Backend.functionName op) := by
  have hpow : IsName .rendered "pow" :=
    ⟨by decide, 'p', ['o', 'w'], by decide +kernel, by decide, by decide⟩
  have hfmod : IsName .rendered "fmod" :=
    ⟨by decide, 'f', ['m', 'o', 'd'], by decide +kernel, by decide, by decide⟩
  cases op with
  | pow => exact hpow
  | _ => exact hfmod

theorem written_backendNumber (b : Backend) (h : Decimal.read? s.toList = some n) :
    Written .rendered .atom (b.number s) (.number (b.number s) n.toFloat .zero) := by
  cases b with
  | array => exact written_number h
  | cpp =>
    rw [Backend.number]
    split
    · next hdigits =>
      obtain ⟨n', hread, hvalue⟩ := Decimal.read?_append_point_zero hdigits h
      rw [← hvalue]
      exact written_number (by simpa using hread)
    · exact written_number h

theorem written_backendTruth (b : Backend) (v : Bool) :
    Written .rendered .atom (b.truth v) (.bool v .zero) := by
  have hfalse : "false".toList = 'f' :: ['a', 'l', 's', 'e'] := by decide +kernel
  have htrue : "true".toList = 't' :: ['r', 'u', 'e'] := by decide +kernel
  cases b with
  | array =>
    have htruth := written_truth .rendered v
    cases v <;> exact htruth
  | cpp =>
    cases v
    · exact written_word (by decide) hfalse (by decide) (by decide)
    · exact written_word (by decide) htrue (by decide) (by decide)

/-- The operands of a connective are in parentheses, and it is a symbol. -/
theorem written_backendChain (b : Backend) (op : BoolOp) {es : List α} {text : α → String}
    {tree : α → Expr} (hlen : 2 ≤ es.length)
    (h : ∀ x ∈ es, Written .rendered .disjunction (text x) (tree x)) :
    Written .rendered .disjunction
      ((b.connective op).intercalate (es.map fun x => "(" ++ text x ++ ")"))
      (.logical op (es.map tree) .zero) := by
  have hparens (m : Level) : ∀ x ∈ es, Written .rendered m ("(" ++ text x ++ ")") (tree x) :=
    fun x hx => (h x hx).parens.anywhere m
  have hmem : ∀ op, Token.single op ∈ Token.symbols .rendered ∧
      Token.doubled op ∈ Token.symbols .rendered := by
    intro op
    cases op <;> decide
  cases b with
  | array =>
    have ht : Token.Spaced .rendered (.single op) := .inl (hmem op).1
    cases op with
    | and =>
      exact (written_chain (t := .single .and) .singleAnd ht (.single rfl) hlen
        (hparens _)).loosen (Nat.zero_le _)
    | or =>
      exact (written_chain (t := .single .or) .singleOr ht (.single rfl) hlen
        (hparens _)).loosen (Nat.zero_le _)
  | cpp =>
    have ht : Token.Spaced .rendered (.doubled op) := .inl (hmem op).2
    cases op with
    | and =>
      exact (written_chain (t := .doubled .and) .and ht (.doubled rfl) hlen
        (hparens _)).loosen (Nat.zero_le _)
    | or =>
      exact (written_chain (t := .doubled .or) .or ht (.doubled rfl) hlen
        (hparens _)).loosen (Nat.zero_le _)

theorem written_operand {b : Backend} (least : Nat) (hleast : 5 ≤ least)
    (h : Written .rendered e.backendLevel (e.backendText b) (e.backendTree b)) :
    Written .rendered (.ofPrecedence least) (parenthesize least e (e.backendText b))
      (e.backendTree b) := by
  apply h.parenthesize
  intro hle
  rw [Expr.backendLevel, if_neg (by omega)]
  exact Level.depth_ofPrecedence_mono hle

theorem written_backendUnary (b : Backend)
    (h : Written .rendered e.backendLevel (e.backendText b) (e.backendTree b)) :
    Written .rendered (Expr.unary op e sp).backendLevel ((Expr.unary op e sp).backendText b)
      ((Expr.unary op e sp).backendTree b) := by
  have hany : Written .rendered .disjunction (e.backendText b) (e.backendTree b) :=
    h.loosen (Nat.zero_le _)
  have hsigned : Written .rendered .factor (b.signed e (e.backendText b)) (e.backendTree b) := by
    cases b with
    | array => exact written_operand 7 (by decide) h
    | cpp =>
      cases e with
      | unary => exact hany.parens.anywhere _
      | _ => exact written_operand 7 (by decide) h
  cases op with
  | pos => exact Written.sign (t := .op .add) hsigned .pos
  | neg => exact Written.sign (t := .op .sub) hsigned .neg
  | not =>
    cases b with
    | array =>
      have hargs : ∀ x ∈ [e],
          Written .rendered .disjunction (x.backendText .array) (x.backendTree .array) :=
        List.forall_mem_singleton.2 hany
      exact (written_call isName_logical_not hargs).loosen (Nat.zero_le _)
    | cpp =>
      have hnot := Written.sign (t := .bang) (hany.parens.anywhere .factor) (.not rfl)
      have htext : Token.bang.spelling ++ ("(" ++ e.backendText .cpp ++ ")") =
          (Expr.unary .not e sp).backendText .cpp := by
        simp only [Expr.backendText, String.append_assoc]
        rfl
      exact htext ▸ hnot.loosen (Nat.zero_le _)

theorem written_backendBinary (b : Backend)
    (hl : Written .rendered l.backendLevel (l.backendText b) (l.backendTree b))
    (hr : Written .rendered r.backendLevel (r.backendText b) (r.backendTree b)) :
    Written .rendered (Expr.binary op l r sp).backendLevel ((Expr.binary op l r sp).backendText b)
      ((Expr.binary op l r sp).backendTree b) := by
  rw [Expr.backendText, Expr.backendTree]
  split
  · have hlevel : (Expr.binary op l r sp).backendLevel = .ofPrecedence op.precedence := by
      cases op <;> rfl
    rw [hlevel]
    exact Written.binary (written_operand _ (by cases op <;> decide) hl)
      (written_operand _ (by cases op <;> decide) hr)
  · have hargs : ∀ e ∈ [l, r],
        Written .rendered .disjunction (e.backendText b) (e.backendTree b) :=
      List.forall_mem_cons.2 ⟨hl.loosen (Nat.zero_le _),
        List.forall_mem_singleton.2 (hr.loosen (Nat.zero_le _))⟩
    have hcall := written_call (isName_functionName op) hargs
    have htext : ", ".intercalate ([l, r].map (·.backendText b)) =
        l.backendText b ++ ", " ++ r.backendText b := by
      simp [String.intercalate_cons_cons]
    rw [htext] at hcall
    simpa [String.append_assoc] using hcall.loosen (Expr.backendLevel_depth _)

theorem written_backendCompare (b : Backend) (hne : rest ≠ [])
    (he : Written .rendered e.backendLevel (e.backendText b) (e.backendTree b))
    (hrest : ∀ x ∈ rest,
      Written .rendered x.2.backendLevel (x.2.backendText b) (x.2.backendTree b)) :
    Written .rendered (Expr.compare e rest sp).backendLevel
      ((Expr.compare e rest sp).backendText b) ((Expr.compare e rest sp).backendTree b) := by
  have hpair : ∀ x ∈ Expr.pairs e rest, Written .rendered .comparison
      (x.1.operandText b ++ " " ++ x.2.1.symbol ++ " " ++ x.2.2.operandText b)
      (.compare (x.1.backendTree b) [(x.2.1, x.2.2.backendTree b)] .zero) := by
    intro x hx
    obtain ⟨hl, y, hy, hr⟩ := Expr.mem_pairs hx
    have hleft : Written .rendered .sum (x.1.operandText b) (x.1.backendTree b) := by
      rcases hl with hl | ⟨z, hz, hl⟩
      · rw [hl]
        exact written_operand 5 (by decide) he
      · rw [hl]
        exact written_operand 5 (by decide) (hrest z hz)
    have hright : Written .rendered .sum (x.2.2.operandText b) (x.2.2.backendTree b) := by
      rw [hr]
      exact written_operand 5 (by decide) (hrest y hy)
    have hrights : ∀ z ∈ [x],
        Written .rendered .singleOr (z.2.2.operandText b) (z.2.2.backendTree b) :=
      List.forall_mem_singleton.2 (hright.loosen (by decide))
    have htext : (" " ++ x.2.1.symbol ++ " " ++ x.2.2.operandText b).toList =
        [x].flatMap fun z =>
          ' ' :: z.2.1.symbol.toList ++ ' ' :: (z.2.2.operandText b).toList := by
      simp
    have hcompare := written_comparisons (hleft.loosen (by decide)) (by simp) hrights htext
    simpa [String.append_assoc] using hcompare
  have hlevel : (Expr.compare e rest sp).backendLevel = .disjunction := rfl
  rw [hlevel, Expr.backendText, Expr.backendTree, ← Expr.operandText, Expr.pairTexts_eq,
    Expr.pairTrees_eq]
  obtain ⟨x, rest, rfl⟩ := List.exists_cons_of_ne_nil hne
  cases rest with
  | nil => exact (hpair _ List.mem_cons_self).loosen (Nat.zero_le _)
  | cons y rest =>
    have hchain := written_backendChain b .and (by simp [Expr.pairs]) fun x hx =>
      (hpair x hx).loosen (l := .disjunction) (Nat.zero_le _)
    simpa [Backend.conjunction, Expr.conjunctionTree, Expr.pairs, Function.comp_def] using hchain

/-- The text for a backend is written for the tree, whatever it is an operand of. -/
theorem Legible.written_backendText (b : Backend) (h : Legible (IsName .rendered) e) :
    Written .rendered e.backendLevel (e.backendText b) (e.backendTree b) := by
  induction h with
  | number hs => exact (written_backendNumber b hs).anywhere _
  | @bool v => exact (written_backendTruth b v).anywhere _
  | var hx => exact (written_var hx).anywhere _
  | @call f args sp hf _ ih =>
    rw [Expr.backendText, Expr.backendTree, Expr.backendTexts_eq, Expr.backendTrees_eq]
    exact written_call hf fun e he => (ih e he).loosen (Nat.zero_le _)
  | unary _ ih => exact written_backendUnary b ih
  | binary _ _ ihl ihr => exact written_backendBinary b ihl ihr
  | compare _ hne _ ihe ihr => exact written_backendCompare b hne ihe ihr
  | @logical es op sp hlen _ ih =>
    rw [Expr.backendText, Expr.backendTree, Expr.backendTexts_eq, Expr.backendTrees_eq,
      List.map_map]
    have hchain := written_backendChain b op hlen fun e he => (ih e he).loosen (Nat.zero_le _)
    cases op <;> exact hchain

end Formulae
