import Formulae.Dependencies
import Formulae.Proofs.Eval.Refinement
import Formulae.Proofs.Eval.Registered

namespace Formulae
open Eval Outcome
set_option autoImplicit true

namespace Eval

variable {call : Caller} {σ τ : Scope}

/-- The outcomes of calls do not depend on the variables of the caller. -/
def Secluded (call : Caller) : Prop :=
  ∀ sp f args σ τ, call sp f args σ = call sp f args τ

theorem secluded_callWith {fs : Interpreter} (inner : Option Caller)
    (hfs : ∀ (f : String) (d : Definition), fs[f]? ≠ some (.code d)) :
    Secluded (callWith fs inner) :=
  fun _ f _ σ τ => callWith_of_ne_code (hfs f) inner inner σ τ

theorem secluded_builtin [Draws] (depth : Nat) : Secluded (callWithin Interpreter.builtin depth) := by
  cases depth <;> exact secluded_callWith _ Interpreter.builtin_ne_code

/-- Both runs end with the same values of some names, or both with the same fault. -/
inductive Alike (P : String → Prop) : Except Stop Scope → Except Stop Scope → Prop
  | ok {σ τ : Scope} : (∀ x, P x → σ[x]? = τ[x]?) → Alike P (.ok σ) (.ok τ)
  | error {σ τ : Scope} : Alike P (.error ⟨f, σ⟩) (.error ⟨f, τ⟩)

theorem Alike.imp (h : Alike P a b) (hP : ∀ x, Q x → P x) : Alike Q a b := by
  cases h with
  | ok h => exact .ok fun x hx => h x (hP x hx)
  | error => exact .error

/-- Statements run alike from scopes that agree on what is read from outside, if their calls do. -/
theorem alike_or_error (P : Fault → Prop) (call call' : Caller) {outer : String → Prop}
    {ss : List Statement} (defined : Names)
    (hreads : ∀ x ∈ Statement.undefinedReads defined ss, outer x)
    (hcalls : ∀ {σ τ : Scope}, (∀ x, outer x → τ[x]? = σ[x]?) → ∀ s ∈ ss,
      ∀ f ∈ s.value.functions, ∀ sp vs, Follows P (call' sp f vs τ) (call sp f vs σ))
    (h : ∀ x, x ∈ defined ∨ outer x → τ[x]? = σ[x]?) :
    Alike (fun x => (x ∈ defined ∨ ∃ s ∈ ss, s.target = x) ∨ outer x) (statements call' τ ss)
        (statements call σ ss) ∨
      ∃ f υ, P f ∧ statements call' τ ss = .error ⟨f, υ⟩ := by
  -- The names in `defined` have been assigned to, so the scopes agree on them whatever they held.
  induction ss generalizing defined σ τ with
  | nil =>
    refine .inl (.ok fun x hx => h x ?_)
    simpa using hx
  | cons s ss ih =>
    have hvars : ∀ x ∈ s.reads, τ[x]? = σ[x]? := by
      intro x hx
      apply h x
      by_cases hdefined : x ∈ defined
      · exact .inl hdefined
      · exact .inr (hreads x (mem_union_iff.2 (.inl (mem_sdiff_iff.2 ⟨hx, hdefined⟩))))
    have hassigned := follows_assigned hvars
      (hcalls (fun x hx => h x (.inr hx)) s List.mem_cons_self)
    rw [statements, statements]
    rcases hassigned with hassigned | ⟨f, hf, hassigned⟩
    · rw [hassigned]
      cases assigned call σ s with
      | error f => exact .inl .error
      | ok v =>
        have hstep : ∀ x, x ∈ defined.insert s.target ∨ outer x →
            (τ.insert s.target v)[x]? = (σ.insert s.target v)[x]? := by
          intro x hx
          rw [Table.getElem?_insert, Table.getElem?_insert]
          split
          · rfl
          · next hne => exact h x (hx.imp_left fun hx => (mem_insert_iff.1 hx).resolve_left hne)
        have hrest := ih (defined.insert s.target)
          (fun x hx => hreads x (mem_union_iff.2 (.inr hx)))
          (fun h s hs => hcalls h s (List.mem_cons_of_mem _ hs)) hstep
        apply hrest.imp_left
        intro halike
        apply halike.imp
        intro x hx
        rw [exists_mem_cons, ← or_assoc, or_comm (a := x ∈ defined)] at hx
        rw [mem_insert_iff]
        exact hx
    · rw [hassigned]
      exact .inr ⟨f, τ, hf, rfl⟩

theorem alike_statements (hcall : Secluded call) {ss : List Statement} (defined : Names)
    (h : ∀ x, x ∈ defined ∨ x ∈ Statement.undefinedReads defined ss → σ[x]? = τ[x]?) :
    Alike (fun x => x ∈ defined ∨ ∃ s ∈ ss, s.target = x) (statements call σ ss)
      (statements call τ ss) := by
  have halike := alike_or_error (fun _ => False) call call defined (fun _ hx => hx)
    (fun _ _ _ f _ sp vs => .inl (hcall sp f vs _ _)) h
  have hsame := halike.resolve_right fun ⟨_, _, hf, _⟩ => hf
  exact hsame.imp fun x hx => .inl hx

/-- A run leaves alone what it does not assign to. -/
theorem statements_frame {ss : List Statement} (hrun : statements call σ ss = .ok τ)
    (hx : ∀ s ∈ ss, s.target ≠ x) : τ[x]? = σ[x]? := by
  induction ss generalizing σ with
  | nil =>
    cases hrun
    rfl
  | cons s ss ih =>
    rw [List.forall_mem_cons] at hx
    rw [statements] at hrun
    split at hrun
    · rw [ih hrun hx.2, Table.getElem?_insert, if_neg hx.1]
    · cases hrun

end Eval

/-- What a block does is determined by the values of the names that it reads before it assigns to
them, and what it changes are the names that it assigns to. -/
theorem run_determined_by_undefined_reads [Draws] (functions : Names) (ss : List Statement)
    (h : ∀ x ∈ (Dependencies.ofStatements ∅ functions ss).undefinedRead, σ[x]? = τ[x]?) :
    (∃ σ' τ', Interpreter.builtin.run σ ss = .ok σ' ∧ Interpreter.builtin.run τ ss = .ok τ' ∧
      (∀ x ∈ (Dependencies.ofStatements ∅ functions ss).written, σ'[x]? = τ'[x]?) ∧
      ∀ x ∉ (Dependencies.ofStatements ∅ functions ss).written,
        σ'[x]? = σ[x]? ∧ τ'[x]? = τ[x]?) ∨
    ∃ f σ' τ', Interpreter.builtin.run σ ss = .error ⟨f, σ'⟩ ∧
      Interpreter.builtin.run τ ss = .error ⟨f, τ'⟩ := by
  have hwritten {x : String} : x ∈ Statement.writtenBy ss ↔ ∃ s ∈ ss, s.target = x := by
    simp [Statement.writtenBy]
  have hread : ∀ x, x ∈ (∅ : Names) ∨ x ∈ Statement.undefinedReads ∅ ss → σ[x]? = τ[x]? :=
    fun x hx => h x (hx.resolve_left Std.ExtTreeSet.not_mem_empty)
  have halike := alike_statements (secluded_builtin depthLimit) ∅ hread
  unfold Interpreter.run
  generalize hσ : statements _ σ ss = a at halike
  generalize hτ : statements _ τ ss = b at halike
  cases halike with
  | error => exact .inr ⟨_, _, _, rfl, rfl⟩
  | ok hsame =>
    refine .inl ⟨_, _, rfl, rfl, ?_, ?_⟩
    · intro x hx
      exact hsame x (.inr (hwritten.1 hx))
    · intro x hx
      have htargets : ∀ s ∈ ss, s.target ≠ x := fun s hs hx' => hx (hwritten.2 ⟨s, hs, hx'⟩)
      exact ⟨statements_frame hσ htargets, statements_frame hτ htargets⟩

/-- The update makes `v` zero, so that `k`, which neither scope has a value for, is not looked up. -/
theorem run_determined_by_undefined_reads_skipping :
    let _ : Draws := .middle
    let ss : List Statement := [⟨"v", .update .add, .var "a" .zero⟩,
      ⟨"w", .set, .logical .and [.var "v" .zero, .var "k" .zero] .zero⟩]
    let σ : Scope := Table.ofList [("a", .number (-1)), ("v", .number 1), ("w", .number 5)]
    let τ : Scope := Table.ofList [("a", .number (-1)), ("v", .number 1), ("z", .bool true)]
    (∀ x ∈ (Dependencies.ofStatements ∅ ∅ ss).undefinedRead, σ[x]? = τ[x]?) ∧
      ∃ σ' τ', Interpreter.builtin.run σ ss = .ok σ' ∧ Interpreter.builtin.run τ ss = .ok τ' ∧
        (∀ x ∈ (Dependencies.ofStatements ∅ ∅ ss).written, σ'[x]? = τ'[x]?) ∧
        ∀ x ∉ (Dependencies.ofStatements ∅ ∅ ss).written,
          σ'[x]? = σ[x]? ∧ τ'[x]? = τ[x]? := by
  intro _ ss σ τ
  have hreads : (Dependencies.ofStatements ∅ ∅ ss).undefinedRead.toList = ["a", "k", "v"] := by
    decide +kernel
  have hsame : ∀ x ∈ (Dependencies.ofStatements ∅ ∅ ss).undefinedRead, σ[x]? = τ[x]? := by
    intro x hx
    rw [← Std.ExtTreeSet.mem_toList, hreads] at hx
    simp only [List.mem_cons, List.not_mem_nil, or_false] at hx
    rcases hx with rfl | rfl | rfl <;> rfl
  have hok : (Interpreter.builtin.run σ ss).isOk = true := by decide +kernel
  refine ⟨hsame, ?_⟩
  rcases run_determined_by_undefined_reads ∅ ss hsame with hruns | ⟨f, σ', τ', hσ, -⟩
  · exact hruns
  · rw [hσ] at hok
    cases hok

end Formulae
