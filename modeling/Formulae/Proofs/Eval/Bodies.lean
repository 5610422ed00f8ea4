import Formulae.Dependencies
import Formulae.Proofs.Eval.Refinement
import Formulae.Proofs.Eval.Registered

namespace Formulae
open Eval Outcome
set_option autoImplicit true

def Statement.renamed (names : Table String) (s : Statement) : Statement :=
  { s with target := names.getD s.target s.target, value := s.value.rename names }

theorem Statement.map_renamed_empty (ss : List Statement) : ss.map (renamed ∅) = ss := by
  have hid : renamed ∅ = id := by
    funext s
    simp [renamed, Expr.rename_empty]
  rw [hid, List.map_id]

namespace Definition

def ownNames (d : Definition) : Names := .ofList d.params ∪ d.locals

def resultReads (d : Definition) : Names := (d.result.map Expr.identifiers).getD ∅

/-- The names that a call reads of the variables of its caller. -/
def outerReads (d : Definition) : Names :=
  Statement.undefinedReads (.ofList d.params) d.body ∪ (d.resultReads \ d.ownNames)

theorem mem_ownNames {d : Definition} :
    x ∈ d.ownNames ↔ x ∈ d.params ∨ ∃ s ∈ d.body, s.target = x := by
  simp [ownNames, locals]

theorem mem_outerReads_of_result {d : Definition} (hresult : d.result = some e)
    (hx : x ∈ e.identifiers) (hown : x ∉ d.ownNames) : x ∈ d.outerReads := by
  have hreads : x ∈ d.resultReads := by simpa [resultReads, hresult] using hx
  exact mem_union_iff.2 (.inr (mem_sdiff_iff.2 ⟨hreads, hown⟩))

theorem mem_calls {d : Definition} : f ∈ d.calls ↔
    (∃ s ∈ d.body, f ∈ s.value.functions) ∨ ∃ e, d.result = some e ∧ f ∈ e.functions := by
  have hfold (ss : List Statement) (names : Names) :
      f ∈ ss.foldl (fun names s => names ∪ s.value.functions) names ↔
        (∃ s ∈ ss, f ∈ s.value.functions) ∨ f ∈ names := by
    induction ss generalizing names with
    | nil => simp
    | cons s ss ih =>
      rw [List.foldl_cons, ih, mem_union_iff, exists_mem_cons]
      grind
  rw [calls, hfold]
  cases d.result <;> simp

end Definition

namespace Eval

/-- Under their new names, the variables have the values of the old ones. -/
def Agree (names : Table String) (P : String → Prop) (σ τ : Scope) : Prop :=
  ∀ x, P x → τ[names.getD x x]? = σ[x]?

/-- Names of the caller stay as they are, and no own name is renamed to the new name of another. -/
structure Renaming (names : Table String) (own outer : String → Prop) : Prop where
  keeps : outer x → names.getD x x = x
  apart : own y → own x ∨ outer x → names.getD x x = names.getD y y → x = y

theorem Renaming.empty (own outer : String → Prop) : Renaming ∅ own outer where
  keeps _ := Std.ExtTreeMap.getD_empty
  apart _ _ hname := by simpa using hname

theorem Agree.insert (h : Agree names P σ τ)
    (hapart : ∀ x, P x → names.getD x x = names.getD y y → x = y) (v : Value) :
    Agree names (fun x => x = y ∨ P x) (σ.insert y v) (τ.insert (names.getD y y) v) := by
  intro x hx
  rw [Table.getElem?_insert, Table.getElem?_insert]
  by_cases hxy : x = y
  · subst hxy
    rw [if_pos rfl, if_pos rfl]
  · have hP := hx.resolve_left hxy
    rw [if_neg (Ne.symm hxy), if_neg fun hname => hxy (hapart x hP hname.symm)]
    exact h x hP

theorem refines_assigned {s : Statement} {names : Table String}
    (hreads : ∀ x ∈ s.reads, τ[names.getD x x]? = σ[x]?)
    (hcalls : ∀ f ∈ s.value.functions, ∀ sp vs, Refines (call' sp f vs τ) (call sp f vs σ)) :
    Refines (assigned call' τ (s.renamed names)) (assigned call σ s) := by
  obtain ⟨target, op, value⟩ := s
  cases op with
  | set => exact (refines_rename hreads hcalls).bind fun v => .refl _
  | update op =>
    have hvalue : ∀ x ∈ value.identifiers, τ[names.getD x x]? = σ[x]? := by
      intro x hx
      exact hreads x (mem_insert_iff.2 (.inr hx))
    have htarget : τ[names.getD target target]? = σ[target]? :=
      hreads target (mem_insert_iff.2 (.inl rfl))
    apply (refines_rename hvalue hcalls).bind
    intro v
    simp only [Statement.renamed, htarget]
    cases σ[target]? with
    | some old => exact .refl _
    | none => exact refines_error _ _

/-- Statements with their variables renamed. Before they are run, the names in `defined` are
assigned to. -/
theorem statements_renamed {ss : List Statement} (defined : Names) {own outer : String → Prop}
    (hnames : Renaming names own outer) (hown : ∀ s ∈ ss, own s.target)
    (hreads : ∀ x ∈ Statement.undefinedReads defined ss, outer x)
    (hcalls : ∀ {σ τ : Scope}, (∀ x, outer x → τ[x]? = σ[x]?) → ∀ s ∈ ss,
      ∀ f ∈ s.value.functions, ∀ sp vs, Refines (call' sp f vs τ) (call sp f vs σ))
    (hdefined : ∀ x ∈ defined, own x)
    (hagree : Agree names (fun x => x ∈ defined ∨ outer x) σ τ)
    (hrun : statements call' τ (ss.map (Statement.renamed names)) = .ok τ') :
    ∃ σ', statements call σ ss = .ok σ' ∧
      Agree names (fun x => (x ∈ defined ∨ ∃ s ∈ ss, s.target = x) ∨ outer x) σ' τ' := by
  -- The scopes agree on the names assigned to so far and on those of the caller, and nothing else.
  induction ss generalizing defined σ τ with
  | nil =>
    cases hrun
    exact ⟨σ, rfl, fun x hx => hagree x (by simpa using hx)⟩
  | cons s ss ih =>
    have houter : ∀ x, outer x → τ[x]? = σ[x]? := by
      intro x hx
      rw [← hagree x (.inr hx), hnames.keeps hx]
    have hvars : ∀ x ∈ s.reads, τ[names.getD x x]? = σ[x]? := by
      intro x hx
      apply hagree x
      by_cases hd : x ∈ defined
      · exact .inl hd
      · apply Or.inr (hreads x _)
        exact mem_union_iff.2 (.inl (mem_sdiff_iff.2 ⟨hx, hd⟩))
    have hassigned := refines_assigned hvars (hcalls houter s List.mem_cons_self)
    rw [List.map_cons, statements] at hrun
    split at hrun
    · next v hv =>
      have hstep : Agree names (fun x => x ∈ defined.insert s.target ∨ outer x)
          (σ.insert s.target v) (τ.insert (names.getD s.target s.target) v) := by
        intro x hx
        apply hagree.insert _ v x
        · rw [mem_insert_iff] at hx
          tauto
        · intro x hx hname
          exact hnames.apart (hown s List.mem_cons_self) (hx.imp_left (hdefined x)) hname
      obtain ⟨σ', hσ', hagree'⟩ := ih _ (fun s hs => hown s (List.mem_cons_of_mem _ hs))
        (fun x hx => hreads x (mem_union_iff.2 (.inr hx)))
        (fun h s hs => hcalls h s (List.mem_cons_of_mem _ hs)) (by
          intro x hx
          rcases mem_insert_iff.1 hx with rfl | hx
          · exact hown s List.mem_cons_self
          · exact hdefined x hx) hstep hrun
      refine ⟨σ', ?_, ?_⟩
      · rw [statements, hassigned v hv]
        exact hσ'
      · intro x hx
        apply hagree' x
        simp only [exists_mem_cons, mem_insert_iff] at hx ⊢
        grind
    · cases hrun

/-- The arguments under the new names of the parameters. -/
def passed (names : Table String) (params : List String) (args : List Value) (scope : Scope) :
    Scope :=
  (params.zip args).foldl (fun s (x, v) => s.insert (names.getD x x) v) scope

theorem passed_empty (d : Definition) (args : List Value) (scope : Scope) :
    passed ∅ d.params args scope = bodyScope d args scope := by
  simp [passed, bodyScope]

theorem agree_passed {own outer : String → Prop} {params : List String}
    (hnames : Renaming names own outer) (hown : ∀ x ∈ params, own x)
    (hlen : args.length = params.length) (hagree : Agree names P σ τ)
    (hP : ∀ x, P x → own x ∨ outer x) :
    Agree names (fun x => x ∈ params ∨ P x) (passed ∅ params args σ)
      (passed names params args τ) := by
  induction params generalizing args σ τ P with
  | nil => exact fun x hx => hagree x (by simpa using hx)
  | cons y params ih =>
    obtain ⟨v, args, rfl⟩ := List.exists_cons_of_length_eq_add_one hlen
    rw [List.forall_mem_cons] at hown
    have hstep := hagree.insert (fun x hx => hnames.apart hown.1 (hP x hx)) v
    have hrest := ih hown.2 (Nat.succ_inj.1 hlen) hstep (by
      rintro x (rfl | hx)
      · exact .inl hown.1
      · exact hP x hx)
    intro x hx
    have hx' := hrest x (by grind)
    simpa [passed] using hx'

/-- A body with its own names renamed, once the arguments are at hand under the new names. -/
theorem body_renamed {d : Definition} {outer : String → Prop}
    (hnames : Renaming names (· ∈ d.ownNames) outer) (houter : ∀ x ∈ d.outerReads, outer x)
    (hcalls : ∀ {σ τ : Scope}, (∀ x, outer x → τ[x]? = σ[x]?) → ∀ f ∈ d.calls, ∀ sp vs,
      Refines (call' sp f vs τ) (call sp f vs σ))
    (hlen : args.length = d.params.length) (hagree : ∀ x, outer x → τ[x]? = σ[x]?)
    (hrun : statements call' (passed names d.params args τ)
      (d.body.map (Statement.renamed names)) = .ok τ') :
    ∃ σ', statements call (bodyScope d args σ) d.body = .ok σ' ∧
      Agree names (fun x => x ∈ d.ownNames ∨ outer x) σ' τ' := by
  have hparams : ∀ x ∈ d.params, x ∈ d.ownNames := fun x hx => Definition.mem_ownNames.2 (.inl hx)
  have hkept : Agree names outer σ τ := by
    intro x hx
    rw [hnames.keeps hx]
    exact hagree x hx
  have hpassed := agree_passed hnames hparams hlen hkept fun x hx => .inr hx
  rw [passed_empty] at hpassed
  obtain ⟨σ', hσ', hagree'⟩ := statements_renamed (.ofList d.params) hnames
    (fun s hs => Definition.mem_ownNames.2 (.inr ⟨s, hs, rfl⟩))
    (fun x hx => houter x (mem_union_iff.2 (.inl hx)))
    (fun h s hs f hf => hcalls h f (Definition.mem_calls.2 (.inl ⟨s, hs, hf⟩)))
    (fun x hx => hparams x (mem_ofList_iff.1 hx)) (by simpa using hpassed) hrun
  refine ⟨σ', hσ', fun x hx => hagree' x ?_⟩
  simpa [Definition.mem_ownNames] using hx

/-- The expression for the result with the own names renamed, after such a body. -/
theorem result_renamed {d : Definition} {outer : String → Prop} {names : Table String}
    (hkeeps : ∀ x, outer x → names.getD x x = x) (houter : ∀ x ∈ d.outerReads, outer x)
    (hcalls : ∀ {σ τ : Scope}, (∀ x, outer x → τ[x]? = σ[x]?) → ∀ f ∈ d.calls, ∀ sp vs,
      Refines (call' sp f vs τ) (call sp f vs σ))
    (hresult : d.result = some e) (hagree : Agree names (fun x => x ∈ d.ownNames ∨ outer x) σ τ) :
    Refines (expr call' τ (e.rename names)) (expr call σ e) := by
  apply refines_rename
  · intro x hx
    apply hagree x
    by_cases hown : x ∈ d.ownNames
    · exact .inl hown
    · exact .inr (houter x (Definition.mem_outerReads_of_result hresult hx hown))
  · intro f hf
    apply hcalls
    · intro x hx
      have hx' := hagree x (.inr hx)
      rwa [hkeeps x hx] at hx'
    · exact Definition.mem_calls.2 (.inr ⟨e, hresult, hf⟩)

end Eval

end Formulae
