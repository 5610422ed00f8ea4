import Formulae.Proofs.Eval.Lookup
import Formulae.Proofs.Eval.Nesting
import Formulae.Proofs.Eval.Rules
import Mathlib.Data.List.Nodup

namespace Formulae
open Eval Outcome CallGraph
set_option autoImplicit true

/-- Recursion is not what the fault is about. -/
def Fault.Shallow (f : Fault) : Prop := f.code ≠ .recursiveInline

namespace Eval

variable {ds : List Definition} {call : Caller}

theorem shallow_expr {e : Expr}
    (hcalls : ∀ f ∈ e.functions, ∀ sp vs, FailsOnly Fault.Shallow (call sp f vs σ)) :
    FailsOnly Fault.Shallow (expr call σ e) := by
  apply failsOnly_expr _ hcalls
  exact fun x _ sp _ => (nomatch ·)

theorem shallow_statements {ss : List Statement} (hcalls : ∀ s ∈ ss, ∀ f ∈ s.value.functions,
    ∀ sp vs σ, FailsOnly Fault.Shallow (call sp f vs σ)) :
    FailsOnly (fun stop => stop.fault.Shallow) (statements call σ ss) := by
  induction ss generalizing σ with
  | nil => exact .ok _
  | cons s ss ih =>
    rw [List.forall_mem_cons] at hcalls
    have hassigned : FailsOnly Fault.Shallow (assigned call σ s) := by
      apply failsOnly_assigned
      · exact fun x _ _ => ⟨fun sp => (nomatch ·), (nomatch ·)⟩
      · exact fun f hf sp vs => hcalls.1 f hf sp vs σ
    rw [statements]
    cases hs : assigned call σ s with
    | error f => exact .error (hassigned f hs)
    | ok v => exact ih hcalls.2

/-- A definition whose calls are no matter of recursion may be called where calls may still nest. -/
theorem shallow_code {fs : Interpreter} (hd : fs[f]? = some (.code d))
    (hcalls : ∀ g ∈ d.calls, ∀ sp vs σ, FailsOnly Fault.Shallow (call sp g vs σ)) :
    FailsOnly Fault.Shallow (callWith fs (some call) sp f args σ) := by
  simp only [callWith, hd]
  apply FailsOnly.bind
  · unfold checkCount
    split
    · exact .ok _
    · exact .error (by rintro ⟨⟩)
  · intro _
    cases hresult : d.result with
    | none => exact .error (by rintro ⟨⟩)
    | some e =>
      have hbody : FailsOnly (fun stop => stop.fault.Shallow)
          (statements call (bodyScope d args σ) d.body) :=
        shallow_statements fun s hs g hg => hcalls g (Definition.mem_calls.2 (.inl ⟨s, hs, hg⟩))
      dsimp only
      cases hrun : statements call (bodyScope d args σ) d.body with
      | error stop => exact .error (hbody stop hrun)
      | ok τ =>
        apply shallow_expr
        intro g hg sp vs
        exact hcalls g (Definition.mem_calls.2 (.inr ⟨e, hresult, hg⟩)) sp vs τ

theorem shallow_undefined [Draws] (h : (Table.ofDefinitions ds)[f]? = none) (m : Nat) :
    FailsOnly Fault.Shallow
      (callWithin (Interpreter.builtin.withDefinitions ds) m sp f args σ) := by
  rw [callWithin_builtin h m 0 σ]
  intro e he hshallow
  have hcodes := callWith_error (Interpreter.builtin_ne_code f) he
  rw [hshallow] at hcodes
  rcases hcodes with hcodes | hcodes <;> cases hcodes

/-- Calls may nest as deep as it took rounds to settle the function, and it does not call deeper. -/
theorem shallow_callWithin [Draws] (hf : Settled ds rounds f) (hdepth : rounds ≤ m) :
    FailsOnly Fault.Shallow
      (callWithin (Interpreter.builtin.withDefinitions ds) m sp f args σ) := by
  induction rounds generalizing f m σ sp args with
  | zero => exact shallow_undefined hf.zero m
  | succ rounds ih =>
    cases hd : (Table.ofDefinitions ds)[f]? with
    | none => exact shallow_undefined hd m
    | some d =>
      obtain ⟨m, rfl⟩ := Nat.exists_eq_add_of_le' (Nat.succ_le_of_lt (by omega : 0 < m))
      have hle : rounds ≤ m := by omega
      have hcode : (Interpreter.builtin.withDefinitions ds)[f]? = some (.code d) := by
        rw [Interpreter.getElem?_withDefinitions, hd]
      apply shallow_code hcode
      intro g hg sp vs σ
      exact ih (hf.of_calls hd hg) hle

/-- A name for each number, and longer for a greater one. -/
def link (i : Nat) : String := .ofList (List.replicate (i + 1) 'f')

/-- One of `n` functions each of which calls the next one; the last one calls none. -/
def linkDefinition (n i : Nat) : Definition where
  name := link i
  params := []
  body := []
  result := some (if i + 1 < n then .call (link (i + 1)) [] .zero else .bool true .zero)

def chain (n : Nat) : List Definition := (List.range n).map (linkDefinition n)

@[simp] theorem length_link (i : Nat) : (link i).length = i + 1 := by
  simp [link]

theorem link_inj (h : link i = link j) : i = j := by
  have hlen := congrArg String.length h
  simpa using hlen

theorem getElem?_chain (hi : i < n) :
    (Table.ofDefinitions (chain n))[link i]? = some (linkDefinition n i) := by
  have hnames : ((chain n).map (·.name)).Nodup := by
    rw [chain, List.map_map]
    exact List.Nodup.map (fun _ _ => link_inj) List.nodup_range
  have hmem : linkDefinition n i ∈ chain n := List.mem_map_of_mem (List.mem_range.2 hi)
  exact Table.getElem?_ofDefinitions_of_mem hnames hmem

theorem code_chain [Draws] (hi : i < n) : (Interpreter.builtin.withDefinitions (chain n))[link i]? =
    some (.code (linkDefinition n i)) := by
  rw [Interpreter.getElem?_withDefinitions, getElem?_chain hi]

theorem size_chain_le (n : Nat) : (Table.ofDefinitions (chain n)).size ≤ n := by
  have hlen : (chain n).length = n := by rw [chain, List.length_map, List.length_range]
  exact Nat.le_trans (size_ofDefinitions_le _) (Nat.le_of_eq hlen)

theorem length_lt_of_calls (h : CallGraph.Calls (Table.ofDefinitions (chain n)) f g) :
    f.length < g.length := by
  obtain ⟨d, hd, hg, -⟩ := h
  obtain ⟨hmem, rfl⟩ := Table.getElem?_ofDefinitions hd
  obtain ⟨i, -, rfl⟩ := List.mem_map.1 hmem
  rcases Definition.mem_calls.1 hg with ⟨s, hs, -⟩ | ⟨e, he, hg⟩
  · cases hs
  · cases he
    split at hg
    · have hnext : link (i + 1) = g := by simpa [Expr.functions, Expr.functionsOfList] using hg
      rw [← hnext, linkDefinition, length_link, length_link]
      omega
    · cases Std.ExtTreeSet.not_mem_empty hg

theorem chain_acyclic (n : Nat) (f : String) :
    ¬Relation.TransGen (CallGraph.Calls (Table.ofDefinitions (chain n))) f f := by
  intro hcycle
  have hlt : Relation.TransGen (· < ·) f.length f.length :=
    hcycle.lift String.length fun _ _ => length_lt_of_calls
  rw [Relation.transGen_eq_self] at hlt
  exact Nat.lt_irrefl _ hlt

/-- As many calls as may still nest lead no further than as many links down the chain. -/
theorem chain_nested [Draws] (hm : i + m < n) (sp : Span) (σ : Scope) : ∃ sp',
    callWithin (Interpreter.builtin.withDefinitions (chain n)) m sp (link i) [] σ =
      .error (.located (.nestedCalls (link (i + m))) sp') := by
  induction m generalizing i sp with
  | zero =>
    refine ⟨sp, ?_⟩
    simp only [callWithin, callWith, code_chain (by omega : i < n)]
    rfl
  | succ m ih =>
    have hnext : linkDefinition n i = ⟨link i, [], [], some (.call (link (i + 1)) [] .zero)⟩ := by
      rw [linkDefinition, if_pos (by omega)]
    obtain ⟨sp', h⟩ := ih (i := i + 1) (by omega) .zero
    rw [Nat.add_right_comm] at h
    refine ⟨sp', ?_⟩
    simp only [callWithin, callWith, code_chain (by omega : i < n), hnext]
    exact h

end Eval

/-- Every expression and every block has exactly one outcome by the rules, and that is what
evaluation and execution give; and if there is no recursion among the functions, and there are no
more of them than calls may nest, then none fails for recursion. -/
theorem calls_nest_within_limit [Draws] (ds : List Definition) :
    (∀ σ e r, Evaluates (Interpreter.builtin.withDefinitions ds) 0 σ e r ↔
      (Interpreter.builtin.withDefinitions ds).eval σ e = r) ∧
    (∀ σ ss r, Executes (Interpreter.builtin.withDefinitions ds) 0 σ ss r ↔
      (Interpreter.builtin.withDefinitions ds).run σ ss = r) ∧
    ((∀ f, ¬Relation.TransGen (CallGraph.Calls (Table.ofDefinitions ds)) f f) →
      (Table.ofDefinitions ds).size ≤ 256 →
      (∀ σ e fault, (Interpreter.builtin.withDefinitions ds).eval σ e = .error fault →
        fault.code ≠ .recursiveInline) ∧
      ∀ σ ss stop, (Interpreter.builtin.withDefinitions ds).run σ ss = .error stop →
        stop.fault.code ≠ .recursiveInline) := by
  refine ⟨fun σ e r => ?_, fun σ ss r => ?_, fun hacyclic hsize => ?_⟩
  · exact evaluates_iff fun _ _ _ _ _ => returns_iff (Nat.zero_add _)
  · exact executes_iff fun _ _ _ _ _ => returns_iff (Nat.zero_add _)
  · have hsettled (f : String) : Settled ds (Table.ofDefinitions ds).size f :=
      settledAfter_size hacyclic
    have hcalls (f sp vs σ) : FailsOnly Fault.Shallow
        (callWithin (Interpreter.builtin.withDefinitions ds) depthLimit sp f vs σ) :=
      shallow_callWithin (hsettled f) hsize
    constructor
    · exact fun σ e => shallow_expr fun f _ sp vs => hcalls f sp vs σ
    · exact fun σ ss => shallow_statements fun s _ f _ => hcalls f

/-- A chain of as many functions as the limit allows. -/
theorem calls_nest_within_limit_chain :
    let _ : Draws := .middle
    (∀ f, ¬Relation.TransGen (CallGraph.Calls (Table.ofDefinitions (chain 256))) f f) ∧
    (Table.ofDefinitions (chain 256)).size ≤ 256 ∧
    ∀ σ e fault, (Interpreter.builtin.withDefinitions (chain 256)).eval σ e = .error fault →
      fault.code ≠ .recursiveInline := by
  intro _
  exact ⟨chain_acyclic 256, size_chain_le 256,
    ((calls_nest_within_limit (chain 256)).2.2 (chain_acyclic 256) (size_chain_le 256)).1⟩

/-- No greater number of functions is safe: calls of more than the limit may nest without any
recursion. -/
theorem chain_exceeds_limit [Draws] (hn : 256 < n) (σ : Scope) :
    (∀ f, ¬Relation.TransGen (CallGraph.Calls (Table.ofDefinitions (chain n))) f f) ∧
    (Table.ofDefinitions (chain n)).size ≤ n ∧
    ∃ fault, (Interpreter.builtin.withDefinitions (chain n)).eval σ (.call (link 0) [] .zero) =
      .error fault ∧ fault.code = .recursiveInline := by
  obtain ⟨sp, h⟩ := chain_nested (m := 256) (i := 0) (by omega) .zero σ
  exact ⟨chain_acyclic n, size_chain_le n, _, h, rfl⟩

end Formulae
