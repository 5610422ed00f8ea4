import Formulae.Inline
import Formulae.Proofs.CallGraph
import Formulae.Proofs.Eval.Bodies
import Formulae.Proofs.Eval.Footprint

namespace Formulae
open Eval Outcome
set_option autoImplicit true

namespace Eval

/-- The names that a call of a function may look up among the variables of its caller, in its own
body or in those of the functions that it calls. -/
inductive ReadsOutside (fs : Interpreter) : String → String → Prop
  | body : fs[f]? = some (.code d) → x ∈ d.outerReads → ReadsOutside fs f x
  | call : fs[f]? = some (.code d) → g ∈ d.calls → ReadsOutside fs g x → x ∉ d.params →
      ReadsOutside fs f x

/-- The scopes that a block leads to calls in: its own, and those in which the bodies and results
of called functions are evaluated. The functions on the way are `callers`, the innermost first, and
calls may nest `depth` deeper. -/
inductive CallSite (fs : Interpreter) (block : Scope) : List Definition → Nat → Scope → Prop
  | top : CallSite fs block [] depthLimit block
  | inner {σ τ : Scope} {f : String} : CallSite fs block callers (depth + 1) σ → fs[f]? = some (.code d) →
      args.length = d.params.length → ss <+: d.body →
      statements (callWithin fs depth) (bodyScope d args σ) ss = .ok τ →
      CallSite fs block (d :: callers) depth τ

def NestsTooDeep (fault : Fault) : Prop := ∃ f sp, fault = .located (.nestedCalls f) sp

variable {fs : Interpreter}

theorem getElem?_passed_of_not_mem {pairs : List (String × Value)} {σ : Scope}
    (h : x ∉ pairs.map Prod.fst) :
    (pairs.foldl (fun s (x, v) => s.insert x v) σ)[x]? = σ[x]? := by
  induction pairs generalizing σ with
  | nil => rfl
  | cons p pairs ih =>
    rw [List.map_cons, List.mem_cons, not_or] at h
    rw [List.foldl_cons, ih h.2, Table.getElem?_insert, if_neg (Ne.symm h.1)]

variable {d : Definition} {args : List Value} {σ τ : Scope}

theorem map_fst_zip_params (hlen : args.length = d.params.length) :
    (d.params.zip args).map Prod.fst = d.params :=
  List.map_fst_zip (Nat.le_of_eq hlen.symm)

/-- Bodies of the same function see the same arguments. -/
theorem bodyScope_congr {P : String → Prop} (hlen : args.length = d.params.length)
    (hagree : ∀ x, P x → τ[x]? = σ[x]?) :
    ∀ x, x ∈ d.params ∨ P x → (bodyScope d args τ)[x]? = (bodyScope d args σ)[x]? := by
  have hpassed := agree_passed (.empty (fun _ => True) fun _ => True) (fun _ _ => trivial) hlen
    (show Agree ∅ P σ τ from fun x hx => by simpa using hagree x hx) fun _ _ => .inl trivial
  rw [passed_empty, passed_empty] at hpassed
  intro x hx
  simpa using hpassed x hx

/-- A call of a definition, if the calls in its body follow others wherever the scopes agree on the
parameters and on what is read from outside. -/
theorem follows_code {call call' : Caller} {P : Fault → Prop} {outer : String → Prop}
    (hd : fs[f]? = some (.code d)) (hreads : ∀ x ∈ d.outerReads, outer x)
    (hcalls : ∀ {σ τ : Scope}, (∀ x, x ∈ d.params ∨ outer x → τ[x]? = σ[x]?) → ∀ g ∈ d.calls,
      ∀ sp vs, Follows P (call' sp g vs τ) (call sp g vs σ))
    (hagree : ∀ x, outer x → τ[x]? = σ[x]?) :
    Follows P (callWith fs (some call') sp f args τ) (callWith fs (some call) sp f args σ) := by
  simp only [callWith, hd]
  by_cases hlen : d.params.length = args.length
  · rw [checkCount, if_pos hlen]
    cases hresult : d.result with
    | none => exact .refl _
    | some e =>
      have hscope : ∀ x, x ∈ (.ofList d.params : Names) ∨ x ∈ d.params ∨ outer x →
          (bodyScope d args τ)[x]? = (bodyScope d args σ)[x]? := by
        intro x hx
        rw [mem_ofList_iff, ← or_assoc, or_self] at hx
        exact bodyScope_congr hlen.symm hagree x hx
      have hbody := alike_or_error P call call' (.ofList d.params)
        (fun x hx => .inr (hreads x (mem_union_iff.2 (.inl hx))))
        (fun h s hs g hg => hcalls h g (Definition.mem_calls.2 (.inl ⟨s, hs, hg⟩))) hscope
      simp only [ok_bind]
      rcases hbody with hbody | ⟨fault, υ, hP, hrun⟩
      · generalize statements call' _ _ = after' at hbody ⊢
        generalize statements call _ _ = after at hbody ⊢
        cases hbody with
        | error => exact .refl _
        | ok hsame =>
          apply follows_expr
          · intro x hx
            apply hsame x
            by_cases hown : x ∈ d.ownNames
            · have hown := Definition.mem_ownNames.1 hown
              exact .inl (hown.imp_left mem_ofList_iff.2)
            · have houter := Definition.mem_outerReads_of_result hresult hx hown
              exact .inr (.inr (hreads x houter))
          · intro g hg
            exact hcalls (fun x hx => hsame x (.inr hx)) g
              (Definition.mem_calls.2 (.inr ⟨e, hresult, hg⟩))
      · rw [hrun]
        exact .inr ⟨fault, hP, rfl⟩
  · rw [checkCount, if_neg hlen]
    exact .refl _

theorem follows_code_none (hd : fs[f]? = some (.code d)) (inner : Option Caller) :
    Follows NestsTooDeep (callWith fs none sp f args τ) (callWith fs inner sp f args σ) := by
  simp only [callWith, hd]
  apply Follows.bind (.refl _)
  intro _
  exact .inr ⟨_, ⟨f, sp, rfl⟩, rfl⟩

theorem callWithin_of_ne_code (hcode : ∀ d, fs[f]? ≠ some (.code d)) (n m : Nat) :
    callWithin fs n sp f args τ = callWithin fs m sp f args σ := by
  cases n <;> cases m <;> exact callWith_of_ne_code hcode _ _ _ _

/-- From scopes that agree on what a call looks up it has the same outcome, unless calls nest too
deep for the one of them that may nest less deep. -/
theorem follows_callWithin (hdepth : n ≤ m)
    (hagree : ∀ x, ReadsOutside fs f x → τ[x]? = σ[x]?) :
    Follows NestsTooDeep (callWithin fs n sp f args τ) (callWithin fs m sp f args σ) := by
  induction n generalizing m f args sp σ τ with
  | zero =>
    by_cases hcode : ∃ d, fs[f]? = some (.code d)
    · obtain ⟨d, hd⟩ := hcode
      cases m <;> exact follows_code_none hd _
    · exact .inl (callWithin_of_ne_code (not_exists.1 hcode) 0 m)
  | succ n ih =>
    by_cases hcode : ∃ d, fs[f]? = some (.code d)
    · obtain ⟨d, hd⟩ := hcode
      obtain ⟨m, rfl⟩ := Nat.exists_eq_add_of_le' (Nat.succ_le_of_lt (by omega : 0 < m))
      apply follows_code hd (fun x hx => .body hd hx) _ hagree
      intro σ τ hsame g hg sp vs
      apply ih (by omega)
      -- What the inner call looks up is a parameter, or is looked up outside by this call, too.
      intro x hx
      apply hsame x
      by_cases hparams : x ∈ d.params
      · exact .inl hparams
      · exact .inr (.call hd hg hx hparams)
    · exact .inl (callWithin_of_ne_code (not_exists.1 hcode) (n + 1) m)

/-- A name has the value that it has in the block, unless it is one of a function on the way. -/
theorem CallSite.getElem?_eq {block : Scope} (h : CallSite fs block callers depth τ)
    (hx : ∀ d ∈ callers, x ∉ d.ownNames) : τ[x]? = block[x]? := by
  induction h with
  | top => rfl
  | inner hsite hd hlen hstart hrun ih =>
    rw [List.forall_mem_cons, Definition.mem_ownNames, not_or, not_exists] at hx
    have hframe := statements_frame hrun fun s hs hsx => hx.1.2 s ⟨hstart.subset hs, hsx⟩
    rw [hframe, bodyScope, getElem?_passed_of_not_mem, ih hx.2]
    rw [map_fst_zip_params hlen]
    exact hx.1.1

theorem CallSite.depth_le (h : CallSite fs block callers depth τ) : depth ≤ depthLimit := by
  induction h with
  | top => exact Nat.le_refl _
  | inner _ _ _ _ _ ih => exact Nat.le_of_succ_le ih

end Eval

/-- If no function on the way from the block owns a name that the call looks up outside of the
bodies, then the call has the outcome that it would have in the block; or else calls nest too deep
in it. -/
theorem nested_call_as_in_block (hsite : CallSite fs block callers depth τ)
    (hapart : ∀ x, ReadsOutside fs g x → ∀ d ∈ callers, x ∉ d.ownNames) :
    callWithin fs depth sp g args τ = callWithin fs depthLimit sp g args block ∨
      ∃ f sp', callWithin fs depth sp g args τ = .error (.located (.nestedCalls f) sp') := by
  have hsame : ∀ x, ReadsOutside fs g x → τ[x]? = block[x]? :=
    fun x hx => hsite.getElem?_eq (hapart x hx)
  apply (follows_callWithin hsite.depth_le hsame).imp_right
  rintro ⟨_, ⟨f, sp', rfl⟩, hfault⟩
  exact ⟨f, sp', hfault⟩

/-- The body of `g` looks up `k`, which the function that calls it does not own. -/
theorem nested_call_as_in_block_plain :
    let _ : Draws := .middle
    let g : Definition :=
      ⟨"g", ["v"], [], some (.binary .add (.var "v" .zero) (.var "k" .zero) .zero)⟩
    let f : Definition := ⟨"f", ["q"], [], some (.call "g" [.var "q" .zero] .zero)⟩
    let fs := Interpreter.builtin.withDefinitions [g, f]
    let block : Scope := Table.ofList [("k", .number 10)]
    let site := bodyScope f [.number 1] block
    CallSite fs block [f] 255 site ∧
      (∀ x, ReadsOutside fs "g" x → ∀ d ∈ [f], x ∉ d.ownNames) ∧
      callWithin fs 255 .zero "g" [.number 1] site =
        callWithin fs depthLimit .zero "g" [.number 1] block := by
  intro _ g f fs block site
  have hf : fs["f"]? = some (.code f) := Table.getElem?_insert.trans (if_pos rfl)
  have hg : fs["g"]? = some (.code g) :=
    (Table.getElem?_insert.trans (if_neg (by decide))).trans
      (Table.getElem?_insert.trans (if_pos rfl))
  have hsite : CallSite fs block [f] 255 site := .inner .top hf rfl (List.nil_prefix) rfl
  have hreads : g.outerReads.toList = ["k"] := by decide +kernel
  have hcalls : g.calls.isEmpty = true := by decide +kernel
  have hown : f.ownNames.contains "k" = false := by decide +kernel
  have hapart : ∀ x, ReadsOutside fs "g" x → ∀ d ∈ [f], x ∉ d.ownNames := by
    intro x hx
    cases hx with
    | body hd hx =>
      cases hg.symm.trans hd
      rw [← Std.ExtTreeSet.mem_toList, hreads, List.mem_singleton] at hx
      rw [List.forall_mem_singleton, hx, ← Std.ExtTreeSet.contains_iff_mem, hown]
      decide
    | call hd hmem =>
      cases hg.symm.trans hd
      rw [Std.ExtTreeSet.isEmpty_iff.1 hcalls] at hmem
      exact absurd hmem Std.ExtTreeSet.not_mem_empty
  refine ⟨hsite, hapart, (nested_call_as_in_block hsite hapart).resolve_right ?_⟩
  rintro ⟨f, sp, hfault⟩
  have hok : (callWithin fs 255 .zero "g" [.number 1] site).isOk = true := by decide +kernel
  rw [hfault] at hok
  cases hok

/-- The function that calls `g` has a parameter `k`, and that is what the body of `g` looks up.
Called from the block, or inlined, the body looks up the variable of the block. -/
theorem nested_call_sees_parameter :
    let _ : Draws := .middle
    let g : Definition :=
      ⟨"g", ["v"], [], some (.binary .add (.var "v" .zero) (.var "k" .zero) .zero)⟩
    let f : Definition := ⟨"f", ["k"], [], some (.call "g" [.var "k" .zero] .zero)⟩
    let fs := Interpreter.builtin.withDefinitions [g, f]
    let block : Scope := Table.ofList [("k", .number 10)]
    let site := bodyScope f [.number 1] block
    let ss : List Statement := [⟨"z", .set, .call "f" [.number "1" 1 .zero] .zero⟩]
    let z (after : Except Eval.Stop Scope) : Option String :=
      after.toOption.bind fun scope => scope["z"]?.map Value.text
    CallSite fs block [f] 255 site ∧
      (callWithin fs 255 .zero "g" [.number 1] site).toOption.map Value.text = some "2" ∧
      (callWithin fs depthLimit .zero "g" [.number 1] block).toOption.map Value.text = some "11" ∧
      z (fs.run block ss) = some "2" ∧
      (Statement.inlineAll [g, f] ss).toOption.bind
        (fun out => z (Interpreter.builtin.run block out)) = some "11" := by
  intro _ g f fs block site ss z
  have hf : fs["f"]? = some (.code f) := Table.getElem?_insert.trans (if_pos rfl)
  refine ⟨.inner .top hf rfl List.nil_prefix rfl, ?_, ?_, ?_, ?_⟩
  · decide +kernel
  · decide +kernel
  · decide +kernel
  · decide +kernel

end Formulae
