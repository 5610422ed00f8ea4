import Formulae.Proofs.Eval.Nesting
import Formulae.Proofs.Inline.Expansion

namespace Formulae.Inline
open Eval Outcome
set_option autoImplicit true

variable {ds : List Definition} {σ τ : Scope}

def registered [Draws] (ds : List Definition) : Caller :=
  callWithin (Interpreter.builtin.withDefinitions ds) depthLimit

/-- All functions are settled before calls may nest no deeper. -/
def Shallow (ds : List Definition) : Prop :=
  ∃ rounds ≤ depthLimit, ∀ f, Settled ds rounds f

/-- The variables are the same but for names that are fresh. -/
def AgreeOff (c : Counters) (σ τ : Scope) : Prop := ∀ x, ¬Fresh c x → τ[x]? = σ[x]?

theorem AgreeOff.refl (c : Counters) (σ : Scope) : AgreeOff c σ σ := fun _ _ => rfl

theorem AgreeOff.trans (h : AgreeOff c σ τ) (h' : AgreeOff c τ υ) : AgreeOff c σ υ :=
  fun x hx => (h' x hx).trans (h x hx)

theorem AgreeOff.later (h : AgreeOff c' σ τ) (hlater : ∀ x, Fresh c' x → Fresh c x) :
    AgreeOff c σ τ := fun x hx => h x fun hfresh => hx (hlater x hfresh)

theorem AgreeOff.insert_fresh (h : AgreeOff c σ τ) (hx : Fresh c x) (v : Value) :
    AgreeOff c σ (τ.insert x v) := by
  intro y hy
  rw [Table.getElem?_insert, if_neg]
  · exact h y hy
  · rintro rfl
    exact hy hx

theorem AgreeOff.insert (h : AgreeOff c σ τ) (x : String) (v : Value) :
    AgreeOff c (σ.insert x v) (τ.insert x v) := by
  intro y hy
  rw [Table.getElem?_insert, Table.getElem?_insert, h y hy]

theorem statements_cons_eq_ok {call : Caller} : statements call σ (s :: ss) = .ok τ ↔
    ∃ v, assigned call σ s = .ok v ∧ statements call (σ.insert s.target v) ss = .ok τ := by
  rw [statements]
  split
  · next v hv => simp [hv]
  · next f hf => simp [hf]

theorem statements_append_eq_ok {call : Caller} {ss ss' : List Statement} :
    statements call σ (ss ++ ss') = .ok τ ↔
      ∃ υ, statements call σ ss = .ok υ ∧ statements call υ ss' = .ok τ := by
  induction ss generalizing σ with
  | nil => simp [statements]
  | cons s ss ih =>
    rw [List.cons_append, statements_cons_eq_ok]
    simp only [ih, statements_cons_eq_ok]
    grind

theorem agreeOff_statements {call : Caller} {ss : List Statement}
    (hss : ∀ s ∈ ss, Fresh c s.target) (hrun : statements call σ ss = .ok τ) : AgreeOff c σ τ := by
  induction ss generalizing σ with
  | nil =>
    cases hrun
    exact .refl c _
  | cons s ss ih =>
    rw [List.forall_mem_cons] at hss
    obtain ⟨v, -, hrun⟩ := statements_cons_eq_ok.1 hrun
    exact ((AgreeOff.refl c σ).insert_fresh hss.1 v).trans (ih hss.2 hrun)

/-- The second expression computes what the first does, as long as only names that are fresh by the
counters are assigned to. -/
def Stands [Draws] (ds : List Definition) (σ τ : Scope) (c : Counters) (e' e : Expr) : Prop :=
  ∀ υ, AgreeOff c τ υ → Refines (expr (registered ds) υ e') (expr (registered ds) σ e)

theorem Stands.later [Draws] (h : Stands ds σ τ c e' e) (hagree : AgreeOff c τ τ')
    (hlater : ∀ x, Fresh c' x → Fresh c x) : Stands ds σ τ' c' e' e :=
  fun υ hυ => h υ (hagree.trans (hυ.later hlater))

/-- What is to be shown of an expansion, when `c₀` are the counters at the beginning. -/
def Simulated [Draws] (ds : List Definition) (c₀ : Counters) (σ : Scope) (c : Counters) (e : Expr)
    (a : Expansion Expr) : Prop :=
  (∀ x ∈ e.identifiers, ¬Fresh c₀ x) → (∀ x, Fresh c x → Fresh c₀ x) →
    ∀ {τ τ'}, AgreeOff c₀ σ τ → statements (registered ds) τ a.before = .ok τ' →
      Stands ds σ τ' a.counters a.value e

theorem Chain.simulated [Draws] (hds : Inlinable ds)
    (h : Chain (Table.ofDefinitions ds) (Simulated ds c₀ σ) c es b)
    (hes : ∀ e ∈ es, ∀ x ∈ e.identifiers, ¬Fresh c₀ x) (hlater : ∀ x, Fresh c x → Fresh c₀ x)
    (hagree : AgreeOff c₀ σ τ) (hrun : statements (registered ds) τ b.before = .ok τ') :
    List.Forall₂ (Stands ds σ τ' b.counters) b.value es := by
  induction h generalizing τ with
  | nil => exact .nil
  | @cons c e a es b ha hP hb ih =>
    rw [List.forall_mem_cons] at hes
    obtain ⟨υ, hfirst, hrest⟩ := statements_append_eq_ok.1 hrun
    have hcounted := hds.counted ha
    have hcounted' := hds.chain_counted hb
    have hstep : AgreeOff c₀ τ υ :=
      (agreeOff_statements (fun s hs => hcounted.targets hs) hfirst).later hlater
    constructor
    · exact (hP hes.1 hlater hagree hfirst).later
        (agreeOff_statements (fun s hs => hcounted'.targets hs) hrest) fun x => hcounted'.later
    · exact ih hes.2 (fun x hx => hlater x (hcounted.later hx)) (hagree.trans hstep) hrest

theorem simulated_node [Draws] {e : Expr} (hds : Inlinable ds)
    (hcallee : ∀ f, e.callee? = some f → (Table.ofDefinitions ds)[f]? = none)
    (hb : Chain (Table.ofDefinitions ds) (Simulated ds c₀ σ) c e.operands b) :
    Simulated ds c₀ σ c e ⟨b.before, e.withOperands b.value, b.counters⟩ := by
  intro he hlater τ τ' hagree hrun υ hυ
  have hoperands := hb.simulated hds
    (fun e' he' x hx => he x (Expr.mem_identifiers.2 (.inr ⟨e', he', hx⟩))) hlater hagree hrun
  have hcounted := hds.chain_counted hb
  have hrunning : AgreeOff c₀ τ τ' :=
    (agreeOff_statements (fun s hs => hcounted.targets hs) hrun).later hlater
  apply refines_withOperands
  · exact hoperands.imp fun _ _ hstands => hstands υ hυ
  · intro x hx
    have hfresh := he x (Expr.mem_identifiers.2 (.inl hx))
    have hlater' : ∀ x, Fresh b.counters x → Fresh c₀ x := fun x hx => hlater x (hcounted.later hx)
    exact ((hagree.trans hrunning).trans (hυ.later hlater')) x hfresh
  · intro f hf sp vs
    rw [registered, callWithin_builtin (hcallee f hf) _ depthLimit σ,
      callWithin_builtin (hcallee f hf) _ depthLimit σ]
    exact .refl _

theorem assigned_set (call : Caller) (σ : Scope) (x : String) (e : Expr) :
    assigned call σ ⟨x, .set, e⟩ = expr call σ e :=
  bind_pure _

theorem statements_passing [Draws] {params : List String} {υ : Scope}
    (hargs : List.Forall₂ (Stands ds σ τ c) args' args) (hlen : args'.length = params.length)
    (hfresh : ∀ x ∈ params, Fresh c (names.getD x x)) (hagree : AgreeOff c τ υ)
    (hrun : statements (registered ds) υ (passing names params args') = .ok τ') :
    ∃ vs, exprList (registered ds) σ args = .ok vs ∧ vs.length = params.length ∧
      τ' = passed names params vs υ := by
  induction hargs generalizing params υ with
  | nil =>
    obtain rfl := List.length_eq_zero_iff.1 hlen.symm
    cases hrun
    exact ⟨[], rfl, rfl, rfl⟩
  | @cons e' e args' args he _ ih =>
    obtain ⟨x, params, rfl⟩ := List.exists_cons_of_length_eq_add_one hlen.symm
    rw [List.forall_mem_cons] at hfresh
    obtain ⟨v, hv, hrun⟩ := statements_cons_eq_ok.1 hrun
    rw [assigned_set] at hv
    obtain ⟨vs, hvs, hlen', rfl⟩ := ih (Nat.succ_inj.1 hlen) hfresh.2
      (hagree.insert_fresh hfresh.1 v) hrun
    refine ⟨v :: vs, ?_, by rw [List.length_cons, List.length_cons, hlen'], rfl⟩
    rw [exprList, he υ hagree v hv, ok_bind, hvs, ok_bind]
    rfl

/-- A call computes what its expansion does, given the values of its arguments. -/
theorem stands_call [Draws] (hds : Inlinable ds) (hshallow : Shallow ds)
    (hd : (Table.ofDefinitions ds)[f]? = some d) (hresult : d.result = some e)
    (hargs : exprList (registered ds) σ args = .ok vs) (hlen : vs.length = d.params.length)
    (hagree : ∀ x, Outer ds x → τ[x]? = σ[x]?)
    (hrun : statements (registered ds) (passed (newNames d n) d.params vs τ)
      (d.body.map (Statement.renamed (newNames d n))) = .ok τ')
    (hfresh : ∀ x, x ∈ d.ownNames ∨ Outer ds x → ¬Fresh c ((newNames d n).getD x x)) :
    Stands ds σ τ' c (e.rename (newNames d n)) (.call f args sp) := by
  obtain ⟨rounds, hrounds, hsettled⟩ := hshallow
  obtain ⟨rounds, rfl⟩ : ∃ k, rounds = k + 1 := by
    cases rounds with
    | zero =>
      rw [(hsettled f).zero] at hd
      cases hd
    | succ k => exact ⟨k, rfl⟩
  have hmem := (Table.getElem?_ofDefinitions hd).1
  have houter {d : Definition} (hd : d ∈ ds) : ∀ x ∈ d.outerReads, Outer ds x :=
    fun x hx => hds.outer_of_outerReads hd hx
  have hnames := Outer.renaming hmem n
  -- The body calls one level further down, where what it calls has been settled.
  have hcalls {σ τ : Scope} (h : ∀ x, Outer ds x → τ[x]? = σ[x]?) : ∀ g ∈ d.calls, ∀ sp vs,
      Refines (registered ds sp g vs τ)
        (callWithin (Interpreter.builtin.withDefinitions ds) 255 sp g vs σ) :=
    fun g hg sp vs => refines_callWithin (fun d hd => houter hd) ((hsettled f).of_calls hd hg)
      (Nat.le_of_succ_le_succ hrounds) depthLimit h
  obtain ⟨σ', hbody, hagree'⟩ := body_renamed hnames (houter hmem) hcalls hlen hagree hrun
  intro υ hυ v hv
  have hafter : Agree (newNames d n) (fun x => x ∈ d.ownNames ∨ Outer ds x) σ' υ :=
    fun x hx => (hυ _ (hfresh x hx)).trans (hagree' x hx)
  have hvalue :=
    result_renamed (fun x hx => hnames.keeps hx) (houter hmem) hcalls hresult hafter v hv
  have hcode : (Interpreter.builtin.withDefinitions ds)[f]? = some (.code d) := by
    rw [Interpreter.getElem?_withDefinitions, hd]
  rw [expr, hargs, ok_bind]
  exact (callWith_code_eq_ok hcode).2 ⟨hlen, e, σ', hresult, hbody, hvalue⟩

theorem simulated_call [Draws] (hds : Inlinable ds) (hshallow : Shallow ds)
    (hd : (Table.ofDefinitions ds)[f]? = some d)
    (hb : Chain (Table.ofDefinitions ds) (Simulated ds c₀ σ) c args b)
    (hr : expandCall d b.value sp b.counters = .ok r) :
    Simulated ds c₀ σ c (.call f args sp) { r with before := b.before ++ r.before } := by
  intro he hlater τ τ' hagree hrun
  obtain ⟨hmem, hname⟩ := Table.getElem?_ofDefinitions hd
  have hcounted := hds.chain_counted hb
  have hplain := hds.plain hmem
  obtain ⟨hlen, -, e, hresult, rfl⟩ := expandCall_eq_ok hr
  obtain ⟨υ, hrunArgs, hrun⟩ := statements_append_eq_ok.1 hrun
  obtain ⟨υ', hrunPassing, hrunBody⟩ := statements_append_eq_ok.1 hrun
  have hargs := hb.simulated hds
    (fun e' he' x hx => he x (Expr.mem_identifiers.2 (.inr ⟨e', he', hx⟩))) hlater hagree hrunArgs
  have hparams : ∀ x ∈ d.params, Fresh b.counters
      ((newNames d (b.counters.getD d.name 0)).getD x x) := by
    intro x hx
    rw [getD_newNames, if_pos (Definition.mem_ownNames.2 (.inl hx))]
    exact fresh_newName hplain x
  obtain ⟨vs, hvs, hlenVs, rfl⟩ :=
    statements_passing hargs hlen hparams (.refl _ _) hrunPassing
  have houter : ∀ x, Outer ds x → υ[x]? = σ[x]? := by
    intro x hx
    have hrunning := (agreeOff_statements (fun s hs => hcounted.targets hs) hrunArgs).later hlater
    exact (hagree.trans hrunning) x fun hfresh => hx.1 hfresh.reserved
  apply stands_call hds hshallow hd hresult hvs hlenVs houter hrunBody
  rintro x (hx | hx)
  · rw [getD_newNames, if_pos hx]
    exact not_fresh_newName hplain x
  · rw [(Outer.renaming hmem _).keeps hx]
    exact fun hfresh => hx.1 hfresh.reserved

/-- Expansions compute what the expressions do. -/
theorem simulated_expandExpr [Draws] (hds : Inlinable ds) (hshallow : Shallow ds)
    (h : expandExpr (Table.ofDefinitions ds) c e = .ok a) : Simulated ds c₀ σ c e a := by
  apply expandExpr_induct (P := Simulated ds c₀ σ) _ _ h
  · intro c e b hcallee hb
    exact simulated_node hds hcallee hb
  · intro c f args sp d b r hd hb hr
    exact simulated_call hds hshallow hd hb hr

end Formulae.Inline
