import Formulae.Proofs.Inline.Expansion

namespace Formulae
open Outcome
set_option autoImplicit true

namespace Expr

/-- The function and the number of arguments, if the node is a call. -/
def callSite? (e : Expr) : Option (String × Nat) :=
  e.callee?.map fun f => (f, e.operands.length)

/-- Is there a call of the function with so many arguments, at any depth? -/
inductive HasCall (f : String) (n : Nat) : Expr → Prop
  | here : e.callSite? = some (f, n) → HasCall f n e
  | operand : e' ∈ e.operands → HasCall f n e' → HasCall f n e

theorem hasCall_iff {e : Expr} :
    e.HasCall f n ↔ e.callSite? = some (f, n) ∨ ∃ e' ∈ e.operands, e'.HasCall f n := by
  constructor
  · intro h
    cases h with
    | here h => exact .inl h
    | operand he' h => exact .inr ⟨_, he', h⟩
  · rintro (h | ⟨e', he', h⟩)
    · exact .here h
    · exact .operand he' h

theorem callSite?_withOperands {e : Expr} (h : es.length = e.operands.length) :
    (e.withOperands es).callSite? = e.callSite? := by
  rw [callSite?, callSite?, callee?_withOperands, operands_withOperands h, h]

theorem hasCall_withOperands {e : Expr} (h : es.length = e.operands.length) :
    (e.withOperands es).HasCall f n ↔
      e.callSite? = some (f, n) ∨ ∃ e' ∈ es, e'.HasCall f n := by
  rw [hasCall_iff, callSite?_withOperands h, operands_withOperands h]

theorem callee?_eq_some {e : Expr} :
    e.callee? = some f ↔ ∃ n, e.callSite? = some (f, n) := by
  simp [callSite?]

theorem mem_functions_iff_hasCall {e : Expr} : f ∈ e.functions ↔ ∃ n, e.HasCall f n := by
  induction e using inductOperands with
  | node e ih =>
    rw [mem_functions, callee?_eq_some]
    simp only [hasCall_iff (e := e), exists_or]
    apply or_congr_right
    constructor
    · rintro ⟨e', he', hf⟩
      obtain ⟨n, hn⟩ := (ih e' he').1 hf
      exact ⟨n, e', he', hn⟩
    · rintro ⟨n, e', he', hn⟩
      exact ⟨e', he', (ih e' he').2 ⟨n, hn⟩⟩

theorem hasCall_rename {names : Table String} {e : Expr} :
    (e.rename names).HasCall f n ↔ e.HasCall f n := by
  induction e using inductOperands with
  | node e ih =>
    cases hvar : e.ident? with
    | some y =>
      cases e <;> cases hvar
      rw [rename, hasCall_iff, hasCall_iff (e := .var y _)]
      rfl
    | none =>
      rw [rename_eq_withOperands hvar, hasCall_withOperands (List.length_map _), exists_mem_map,
        hasCall_iff]
      apply or_congr_right
      apply exists_congr
      intro e'
      exact and_congr_right fun he' => ih e' he'

end Expr

namespace Definition

/-- Is there a call of the function with so many arguments in the body or in the result? -/
def HasCall (d : Definition) (f : String) (n : Nat) : Prop :=
  (∃ s ∈ d.body, s.value.HasCall f n) ∨ ∃ e, d.result = some e ∧ e.HasCall f n

theorem mem_calls_iff_hasCall {d : Definition} : f ∈ d.calls ↔ ∃ n, d.HasCall f n := by
  simp only [mem_calls, HasCall, Expr.mem_functions_iff_hasCall]
  grind

/-- Can a call with so many arguments be replaced by the result? -/
def Fits (d : Definition) (n : Nat) : Prop :=
  n = d.params.length ∧ d.result.isSome = true

end Definition

namespace Inline

variable {known : Table Definition}

/-- Do all calls of known functions in the expression fit their definitions? -/
def CallsFit (known : Table Definition) (e : Expr) : Prop :=
  ∀ f n d, e.HasCall f n → known[f]? = some d → d.Fits n

/-- Have the numbers of calls been enough? -/
def InRange (x : Except Fault α) : Prop := ∀ fault, x = .error fault → fault.code ≠ .overflow

theorem InRange.ok (a : α) : InRange (.ok a) := fun _ h => nomatch h

/-- Unless the numbers of calls run out, success is the same as the condition, and a failure has
nothing to do with recursion. -/
def Decides (P : Prop) : Except Fault α → Prop
  | .ok _ => P
  | .error fault => fault.code = .overflow ∨ ¬P ∧ fault.code ≠ .recursiveInline

theorem Decides.of_eq_ok {x : Except Fault α} (h : Decides P x) (hx : x = .ok a) : P := by
  subst hx
  exact h

theorem Decides.congr {x : Except Fault α} (h : Decides P x) (hPQ : P ↔ Q) : Decides Q x := by
  rw [← hPQ]
  exact h

theorem Decides.bind {x : Except Fault α} {f : α → Except Fault β} (hx : Decides P x)
    (hf : ∀ a, x = .ok a → Decides Q (f a)) : Decides (P ∧ Q) (x >>= f) := by
  cases x with
  | ok a => exact (hf a rfl).congr (and_iff_right hx).symm
  | error fault => exact hx.imp_right fun h => ⟨fun hPQ => h.1 hPQ.1, h.2⟩

/-- Steps that cannot fail come after those that decide. -/
theorem Decides.then {x : Except Fault α} {f : α → β} (hx : Decides P x) :
    Decides P (x >>= fun a => .ok (f a)) := by
  cases x with
  | ok a => exact hx
  | error fault => exact hx

theorem decides_expandList {es : List Expr}
    (h : ∀ e ∈ es, ∀ c, Decides (CallsFit known e) (expandExpr known c e)) (c : Counters) :
    Decides (∀ e ∈ es, CallsFit known e) (expandList known c es) := by
  induction es generalizing c with
  | nil => simp [expandList, Decides]
  | cons e es ih =>
    rw [List.forall_mem_cons] at h
    rw [List.forall_mem_cons]
    apply (h.1 c).bind
    intro a _
    exact (ih h.2 _).then

theorem decides_expandRest {rest : List (CmpOp × Expr)}
    (h : ∀ x ∈ rest, ∀ c, Decides (CallsFit known x.2) (expandExpr known c x.2)) (c : Counters) :
    Decides (∀ x ∈ rest, CallsFit known x.2) (expandRest known c rest) := by
  induction rest generalizing c with
  | nil => simp [expandRest, Decides]
  | cons x rest ih =>
    rw [List.forall_mem_cons] at h
    rw [List.forall_mem_cons]
    apply (h.1 c).bind
    intro a _
    exact (ih h.2 _).then

theorem decides_expandCall (d : Definition) (args : List Expr) (sp : Span) (c : Counters) :
    Decides (d.Fits args.length) (expandCall d args sp c) := by
  unfold expandCall
  split
  · next hlen => exact .inr ⟨fun h => hlen h.1, by simp [Fault.code, Fault.located, Reason.code]⟩
  · next hlen =>
    split
    · next hnone =>
      refine .inr ⟨fun h => ?_, by simp [Fault.code, Fault.located, Reason.code]⟩
      rw [Definition.Fits, hnone] at h
      cases h.2
    · next e he =>
      dsimp only
      split
      · exact ⟨not_not.1 hlen, by rw [he]; rfl⟩
      · exact .inl rfl

/-- The calls of a node fit if those of its operands do, and its own one. -/
theorem callsFit_iff {e : Expr} : CallsFit known e ↔ (∀ e' ∈ e.operands, CallsFit known e') ∧
    ∀ f n d, e.callSite? = some (f, n) → known[f]? = some d → d.Fits n := by
  simp only [CallsFit, Expr.hasCall_iff (e := e)]
  grind

theorem callsFit_of_operands {e : Expr} (hcall : e.callSite? = none) :
    (∀ e' ∈ e.operands, CallsFit known e') ↔ CallsFit known e := by
  rw [callsFit_iff (e := e), hcall]
  simp

/-- Expansion succeeds exactly if all calls of known functions fit. -/
theorem decides_expandExpr (known : Table Definition) (c : Counters) (e : Expr) :
    Decides (CallsFit known e) (expandExpr known c e) := by
  induction e using Expr.induct generalizing c with
  | number s x sp => exact (callsFit_of_operands (e := .number s x sp) rfl).1 (by simp [Expr.operands])
  | bool b sp => exact (callsFit_of_operands (e := .bool b sp) rfl).1 (by simp [Expr.operands])
  | var x sp => exact (callsFit_of_operands (e := .var x sp) rfl).1 (by simp [Expr.operands])
  | call f args sp ih =>
    rw [callsFit_iff]
    apply (decides_expandList ih c).bind
    intro a ha
    have hlen := (expandList_chain (P := fun _ _ _ => True) (fun _ _ _ _ _ => trivial) ha).length
    cases hf : known[f]? with
    | none =>
      rintro _ _ d ⟨⟩ hd
      rw [hf] at hd
      cases hd
    | some d =>
      apply ((decides_expandCall d a.value sp a.counters).congr _).then
      rw [hlen]
      constructor
      · rintro hfits _ _ d' ⟨⟩ hd'
        rw [hf] at hd'
        cases hd'
        exact hfits
      · intro hfits
        exact hfits f _ d rfl hf
  | unary op e sp ih =>
    apply (ih c).then.congr
    rw [← callsFit_of_operands (e := .unary op e sp) rfl]
    simp [Expr.operands]
  | binary op l r sp ihl ihr =>
    apply ((ihl c).bind fun a _ => (ihr a.counters).then).congr
    rw [← callsFit_of_operands (e := .binary op l r sp) rfl]
    simp [Expr.operands]
  | compare e rest sp ihe ihr =>
    apply ((ihe c).bind fun a _ => (decides_expandRest ihr a.counters).then).congr
    rw [← callsFit_of_operands (e := .compare e rest sp) rfl, Expr.operands, List.forall_mem_cons,
      List.forall_mem_map]
  | logical op es sp ih =>
    exact (decides_expandList ih c).then.congr (callsFit_of_operands (e := .logical op es sp) rfl)

/-- Is there a call of the function with so many arguments in a statement? -/
def BlockHasCall (ss : List Statement) (f : String) (n : Nat) : Prop :=
  ∃ s ∈ ss, s.value.HasCall f n

theorem mem_calledBy_iff_hasCall {ss : List Statement} :
    f ∈ Statement.calledBy ss ↔ ∃ n, BlockHasCall ss f n := by
  simp only [Statement.mem_calledBy, BlockHasCall, Expr.mem_functions_iff_hasCall]
  grind

theorem blockHasCall_append {ss ss' : List Statement} :
    BlockHasCall (ss ++ ss') f n ↔ BlockHasCall ss f n ∨ BlockHasCall ss' f n := by
  simp only [BlockHasCall, exists_mem_append]

theorem blockHasCall_cons {ss : List Statement} :
    BlockHasCall (s :: ss) f n ↔ s.value.HasCall f n ∨ BlockHasCall ss f n :=
  exists_mem_cons

/-- Is there such a call in the definition of a function that the expression calls? -/
def LeadsTo (known : Table Definition) (e : Expr) (f : String) (n : Nat) : Prop :=
  ∃ g m d, e.HasCall g m ∧ known[g]? = some d ∧ d.HasCall f n

theorem leadsTo_iff {e : Expr} : LeadsTo known e f n ↔ (∃ e' ∈ e.operands, LeadsTo known e' f n) ∨
    ∃ g m d, e.callSite? = some (g, m) ∧ known[g]? = some d ∧ d.HasCall f n := by
  simp only [LeadsTo, Expr.hasCall_iff (e := e)]
  grind

/-- After an expansion there are the calls of unknown functions that the expression has, and those
that it leads to. -/
def Unfolds (known : Table Definition) (_ : Counters) (e : Expr) (a : Expansion Expr) : Prop :=
  ∀ f n, a.value.HasCall f n ∨ BlockHasCall a.before f n ↔
    (f ∉ known ∧ e.HasCall f n) ∨ LeadsTo known e f n

theorem Chain.unfolds (h : Chain known (Unfolds known) c es b) :
    (∃ e ∈ b.value, e.HasCall f n) ∨ BlockHasCall b.before f n ↔
      (f ∉ known ∧ ∃ e ∈ es, e.HasCall f n) ∨ ∃ e ∈ es, LeadsTo known e f n := by
  induction h with
  | nil => simp [BlockHasCall]
  | @cons c e a es b _ ha _ ih =>
    have hfirst := ha f n
    simp only [exists_mem_cons, blockHasCall_append]
    grind

theorem blockHasCall_passing {names : Table String} {params : List String} {args : List Expr}
    (hlen : args.length = params.length) :
    BlockHasCall (passing names params args) f n ↔ ∃ e ∈ args, e.HasCall f n := by
  induction params generalizing args with
  | nil =>
    obtain rfl := List.length_eq_zero_iff.1 hlen
    simp [BlockHasCall, passing]
  | cons x params ih =>
    obtain ⟨e, args, rfl⟩ := List.exists_cons_of_length_eq_add_one hlen
    rw [exists_mem_cons, ← ih (Nat.succ_inj.1 hlen)]
    exact blockHasCall_cons

theorem blockHasCall_renamed {names : Table String} {ss : List Statement} :
    BlockHasCall (ss.map (Statement.renamed names)) f n ↔ BlockHasCall ss f n := by
  simp only [BlockHasCall, exists_mem_map, Statement.renamed, Expr.hasCall_rename]

theorem unfolds_expandExpr (h : expandExpr known c e = .ok a) : Unfolds known c e a := by
  apply expandExpr_induct (P := Unfolds known) _ _ h
  · intro c e b hcallee hb f n
    have hunknown : ∀ g m, e.callSite? = some (g, m) → known[g]? = none :=
      fun g m hsite => hcallee g (Expr.callee?_eq_some.2 ⟨m, hsite⟩)
    have hoperands := hb.unfolds (f := f) (n := n)
    rw [Expr.hasCall_withOperands hb.length, leadsTo_iff, Expr.hasCall_iff (e := e),
      Table.mem_iff_getElem?]
    rw [Table.mem_iff_getElem?] at hoperands
    grind
  · intro c g args sp d b r hd hb hr f n
    obtain ⟨hlen, -, e, hresult, rfl⟩ := expandCall_eq_ok hr
    have hdefinition : d.HasCall f n ↔ BlockHasCall d.body f n ∨ e.HasCall f n := by
      simp [Definition.HasCall, BlockHasCall, hresult]
    have hleads : LeadsTo known (.call g args sp) f n ↔
        (∃ e' ∈ args, LeadsTo known e' f n) ∨ d.HasCall f n := by
      rw [leadsTo_iff]
      simp [Expr.callSite?, Expr.callee?, Expr.operands, hd]
    have hsite : f ∉ known → ((Expr.call g args sp).HasCall f n ↔ ∃ e' ∈ args, e'.HasCall f n) := by
      intro hf
      rw [Expr.hasCall_iff]
      apply or_iff_right
      rintro ⟨⟩
      exact hf (Table.mem_iff_getElem?.2 ⟨d, hd⟩)
    have hargs := hb.unfolds (f := f) (n := n)
    rw [hleads, hdefinition, and_congr_right hsite, blockHasCall_append, blockHasCall_append,
      blockHasCall_passing hlen, blockHasCall_renamed, Expr.hasCall_rename]
    grind

end Inline

end Formulae
