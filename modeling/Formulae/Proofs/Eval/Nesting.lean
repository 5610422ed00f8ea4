import Formulae.Proofs.CallGraph
import Formulae.Proofs.Eval.Bodies

namespace Formulae.Eval
open Outcome CallGraph
set_option autoImplicit true

variable {ds : List Definition} {outer : String → Prop}

/-- Is the function not among the definitions, or else settled after so many rounds? -/
def Settled (ds : List Definition) (rounds : Nat) (f : String) : Prop :=
  f ∈ Table.ofDefinitions ds → SettledAfter (Table.ofDefinitions ds) rounds f

theorem Settled.of_calls (hf : Settled ds (rounds + 1) f)
    (hd : (Table.ofDefinitions ds)[f]? = some d) (hcalls : x ∈ d.calls) : Settled ds rounds x :=
  fun hx => (hf (Table.mem_iff_getElem?.2 ⟨d, hd⟩)).of_calls hd hcalls hx

theorem Settled.zero (hf : Settled ds 0 f) : (Table.ofDefinitions ds)[f]? = none := by
  cases hd : (Table.ofDefinitions ds)[f]? with
  | none => rfl
  | some d => exact (hf (Table.mem_iff_getElem?.2 ⟨d, hd⟩)).elim

theorem callWithin_builtin [Draws] (hf : (Table.ofDefinitions ds)[f]? = none) (n m : Nat) (σ τ : Scope) :
    callWithin (Interpreter.builtin.withDefinitions ds) n sp f args τ =
      callWithin Interpreter.builtin m sp f args σ := by
  cases n <;> cases m <;> exact callWith_builtin hf _ _ _ _

/-- Calls that may nest as deep as the rounds succeed if they do with any other depth. -/
theorem refines_callWithin [Draws] (houter : ∀ d ∈ ds, ∀ x ∈ d.outerReads, outer x)
    (hf : Settled ds rounds f) (hdepth : rounds ≤ m) (n : Nat)
    (hagree : ∀ x, outer x → τ[x]? = σ[x]?) :
    Refines (callWithin (Interpreter.builtin.withDefinitions ds) n sp f args τ)
      (callWithin (Interpreter.builtin.withDefinitions ds) m sp f args σ) := by
  induction rounds generalizing f n m σ τ sp args with
  | zero =>
    rw [callWithin_builtin hf.zero n m τ, callWithin_builtin hf.zero m m τ]
    exact .refl _
  | succ rounds ih =>
    cases hd : (Table.ofDefinitions ds)[f]? with
    | none =>
      rw [callWithin_builtin hd n m τ, callWithin_builtin hd m m τ]
      exact .refl _
    | some d =>
      have hcode : (Interpreter.builtin.withDefinitions ds)[f]? = some (.code d) := by
        rw [Interpreter.getElem?_withDefinitions, hd]
      have hreads := houter d (Table.getElem?_ofDefinitions hd).1
      obtain ⟨m, rfl⟩ := Nat.exists_eq_add_of_le' (Nat.succ_le_of_lt (by omega : 0 < m))
      intro v hv
      cases n with
      | zero => exact absurd hv (callWith_code_none hcode)
      | succ n =>
        obtain ⟨hlen, e, τ', hresult, hbody, he⟩ := (callWith_code_eq_ok hcode).1 hv
        rw [← passed_empty, ← Statement.map_renamed_empty d.body] at hbody
        rw [← e.rename_empty] at he
        have hcalls {σ τ : Scope} (h : ∀ x, outer x → τ[x]? = σ[x]?) : ∀ g ∈ d.calls, ∀ sp vs,
            Refines (callWithin (Interpreter.builtin.withDefinitions ds) n sp g vs τ)
              (callWithin (Interpreter.builtin.withDefinitions ds) m sp g vs σ) :=
          fun g hg sp vs => ih (hf.of_calls hd hg) (by omega) n h
        obtain ⟨σ', hσ', hagree'⟩ :=
          body_renamed (.empty _ _) hreads hcalls hlen hagree hbody
        have hres := result_renamed (fun x _ => Std.ExtTreeMap.getD_empty) hreads hcalls hresult
          hagree' v he
        exact (callWith_code_eq_ok hcode).2 ⟨hlen, e, σ', hresult, hσ', hres⟩

end Formulae.Eval
