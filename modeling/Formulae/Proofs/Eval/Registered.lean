import Formulae.Eval.Text
import Formulae.Names
import Formulae.Proofs.Outcome
import Mathlib.Data.List.Induction

namespace Formulae
set_option autoImplicit true

theorem Table.ofDefinitions_concat (ds : List Definition) (d : Definition) :
    ofDefinitions (ds ++ [d]) = (ofDefinitions ds).insert d.name d := by
  simp [ofDefinitions, ofList]

theorem Table.getElem?_ofDefinitions (h : (ofDefinitions ds)[f]? = some d) :
    d ∈ ds ∧ d.name = f := by
  induction ds using List.reverseRecOn with
  | nil => cases h
  | append_singleton ds d' ih =>
    rw [ofDefinitions_concat, getElem?_insert] at h
    split at h
    · next hname =>
      cases h
      exact ⟨by simp, hname⟩
    · exact ⟨List.mem_append_left _ (ih h).1, (ih h).2⟩

/-- Of definitions with different names none is replaced. -/
theorem Table.getElem?_ofDefinitions_of_mem (hnames : (ds.map (·.name)).Nodup) (hd : d ∈ ds) :
    (ofDefinitions ds)[d.name]? = some d := by
  induction ds using List.reverseRecOn with
  | nil => cases hd
  | append_singleton ds d' ih =>
    rw [List.map_append, List.nodup_append] at hnames
    rw [ofDefinitions_concat, getElem?_insert]
    rcases List.mem_append.1 hd with hd | hd
    · have hne : d'.name ≠ d.name :=
        (hnames.2.2 d.name (List.mem_map_of_mem hd) d'.name (by simp)).symm
      rw [if_neg hne]
      exact ih hnames.1 hd
    · cases List.mem_singleton.1 hd
      rw [if_pos rfl]

theorem size_ofDefinitions_le (ds : List Definition) :
    (Table.ofDefinitions ds).size ≤ ds.length := by
  induction ds using List.reverseRecOn with
  | nil => exact Nat.le_refl _
  | append_singleton ds d ih =>
    rw [Table.ofDefinitions_concat, List.length_append]
    exact Nat.le_trans Std.ExtTreeMap.size_insert_le (Nat.succ_le_succ ih)

namespace Interpreter

/-- A definition replaces a function of the same name. -/
theorem getElem?_withDefinitions (fs : Interpreter) (ds : List Definition) (f : String) :
    (fs.withDefinitions ds)[f]? =
      match (Table.ofDefinitions ds)[f]? with
      | some d => some (.code d)
      | none => fs[f]? := by
  induction ds using List.reverseRecOn with
  | nil => rfl
  | append_singleton ds d ih =>
    have hlast : fs.withDefinitions (ds ++ [d]) =
        (fs.withDefinitions ds).insert d.name (.code d) := by
      simp [withDefinitions]
    rw [hlast, Table.ofDefinitions_concat, Table.getElem?_insert, Table.getElem?_insert]
    split
    · rfl
    · exact ih

theorem getElem?_withDefinitions_of_ne (h : ∀ d ∈ ds, d.name ≠ f) (fs : Interpreter) :
    (fs.withDefinitions ds)[f]? = fs[f]? := by
  rw [getElem?_withDefinitions]
  split
  · next d hd =>
    obtain ⟨hmem, hname⟩ := Table.getElem?_ofDefinitions hd
    exact absurd hname (h d hmem)
  · rfl

theorem builtin_ne_code [Draws] (f : String) (d : Definition) : builtin[f]? ≠ some (.code d) := by
  intro h
  have hmem := Table.mem_of_getElem?_ofList h
  rw [List.mem_append, List.mem_filterMap] at hmem
  rcases hmem with ⟨⟨name, g⟩, -, hg⟩ | hmem
  · obtain ⟨g', -, hg'⟩ := Option.map_eq_some_iff.1 hg
    cases hg'
  · simp [helpers] at hmem

/-- The helpers replace the builtin functions of the same names. -/
theorem getElem?_builtin_of_mem [Draws] (h : (f, c) ∈ helpers) : builtin[f]? = some c := by
  rw [builtin, Table.ofList, List.foldl_append]
  simp only [helpers, List.mem_cons, List.not_mem_nil, or_false] at h
  rcases h with h | h | h <;> cases h <;>
    simp only [helpers, List.foldl_cons, List.foldl_nil, Table.getElem?_insert, String.reduceEq,
      if_false, if_true]

end Interpreter

namespace Eval
open Outcome

variable {fs : Interpreter}

/-- What a call of a definition does: the body is run, and then the result is computed. -/
theorem callWith_code_eq_ok (hf : fs[f]? = some (.code d)) :
    callWith fs (some call) sp f args scope = .ok v ↔
      args.length = d.params.length ∧ ∃ e after, d.result = some e ∧
        statements call (bodyScope d args scope) d.body = .ok after ∧
          expr call after e = .ok v := by
  simp only [callWith, hf, checkCount]
  by_cases hlen : d.params.length = args.length
  · rw [if_pos hlen]
    cases d.result with
    | none => simp
    | some e =>
      cases hbody : statements call (bodyScope d args scope) d.body with
      | ok after => simp [hlen, hbody]
      | error stop => simp [hbody]
  · rw [if_neg hlen]
    simp [Ne.symm hlen]

theorem callWith_code_none (hf : fs[f]? = some (.code d)) :
    callWith fs none sp f args scope ≠ .ok v := by
  simp only [callWith, hf, checkCount]
  split <;> simp

/-- Functions without a body see neither the variables of the caller nor other functions. -/
theorem callWith_of_ne_code (hf : ∀ d, fs[f]? ≠ some (.code d)) (inner inner' : Option Caller)
    (σ τ : Scope) : callWith fs inner sp f args σ = callWith fs inner' sp f args τ := by
  simp only [callWith]
  cases hc : fs[f]? with
  | none => rfl
  | some c =>
    cases c with
    | native => rfl
    | predicate => rfl
    | code d => exact absurd hc (hf d)

theorem callWith_builtin [Draws] (hf : (Table.ofDefinitions ds)[f]? = none)
    (inner inner' : Option Caller) (σ τ : Scope) :
    callWith (Interpreter.builtin.withDefinitions ds) inner sp f args σ =
      callWith Interpreter.builtin inner' sp f args τ := by
  have hget : (Interpreter.builtin.withDefinitions ds)[f]? = Interpreter.builtin[f]? := by
    rw [Interpreter.getElem?_withDefinitions, hf]
  have hcode : ∀ d, (Interpreter.builtin.withDefinitions ds)[f]? ≠ some (.code d) := by
    rw [hget]
    exact Interpreter.builtin_ne_code f
  rw [callWith_of_ne_code hcode inner inner' σ τ]
  simp only [callWith, hget]

end Eval

end Formulae
