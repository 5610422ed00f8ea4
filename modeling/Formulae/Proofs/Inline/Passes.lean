import Formulae.Proofs.Inline.Calls
import Formulae.Proofs.Inline.Simulation

namespace Formulae.Inline
open Eval Outcome CallGraph
set_option autoImplicit true

variable {ds : List Definition} {σ τ : Scope}

theorem pass_cons_eq_ok {known : Table Definition} : pass known c (s :: ss) = .ok (out, c') ↔
    ∃ a rest, expandExpr known c s.value = .ok a ∧ pass known a.counters ss = .ok (rest, c') ∧
      out = a.before ++ { s with value := a.value } :: rest := by
  simp only [pass, bind_eq_ok]
  constructor
  · rintro ⟨a, ha, ⟨rest, c''⟩, hrest, h⟩
    cases h
    exact ⟨a, rest, ha, hrest, rfl⟩
  · rintro ⟨a, rest, ha, hrest, rfl⟩
    exact ⟨a, ha, ⟨rest, c'⟩, hrest, rfl⟩

theorem mem_namesOf_cons {ss : List Statement} : x ∈ namesOf (s :: ss) ↔
    (x ∈ s.value.identifiers ∨ s.target = x) ∨ x ∈ namesOf ss := by
  rw [mem_namesOf, exists_mem_cons, mem_namesOf]

theorem pass_later (hds : Inlinable ds) {ss : List Statement}
    (h : pass (Table.ofDefinitions ds) c ss = .ok (out, c')) : Fresh c' x → Fresh c x := by
  induction ss generalizing c out with
  | nil =>
    cases h
    exact id
  | cons s ss ih =>
    obtain ⟨a, rest, ha, hrest, -⟩ := pass_cons_eq_ok.1 h
    exact fun hx => (hds.counted ha).later (ih hrest hx)

/-- After a pass, no name that is in use may still be given by a later call. -/
theorem pass_settles (hds : Inlinable ds) {ss : List Statement}
    (h : pass (Table.ofDefinitions ds) c ss = .ok (out, c'))
    (hss : ∀ x ∈ namesOf ss, ¬Fresh c x) : ∀ x ∈ namesOf out, ¬Fresh c' x := by
  induction ss generalizing c out with
  | nil =>
    cases h
    exact hss
  | cons s ss ih =>
    obtain ⟨a, rest, ha, hrest, rfl⟩ := pass_cons_eq_ok.1 h
    have hcounted := hds.counted ha
    have hvalue : ∀ x ∈ s.value.identifiers, ¬Fresh c x :=
      fun x hx => hss x (mem_namesOf_cons.2 (.inl (.inl hx)))
    have hfirst := hds.settles ha hvalue
    have hlater {x : String} : Fresh c' x → Fresh a.counters x := pass_later hds hrest
    have hmore := ih hrest fun x hx hfresh =>
      hss x (mem_namesOf_cons.2 (.inr hx)) (hcounted.later hfresh)
    intro x hx hfresh
    rw [mem_namesOf_append, mem_namesOf_cons] at hx
    rcases hx with hx | (hx | rfl) | hx
    · exact hfirst x (.inr hx) (hlater hfresh)
    · exact hfirst x (.inl hx) (hlater hfresh)
    · exact hss s.target (mem_namesOf_cons.2 (.inl (.inr rfl))) (hcounted.later (hlater hfresh))
    · exact hmore x hx hfresh

/-- After a pass there are the calls of unknown functions that the block has, and those that it led
to. -/
theorem blockHasCall_pass {known : Table Definition} {ss : List Statement}
    (h : pass known c ss = .ok (out, c')) : BlockHasCall out f n ↔
      (f ∉ known ∧ BlockHasCall ss f n) ∨ ∃ s ∈ ss, LeadsTo known s.value f n := by
  induction ss generalizing c out with
  | nil =>
    cases h
    simp [BlockHasCall]
  | cons s ss ih =>
    obtain ⟨a, rest, ha, hrest, rfl⟩ := pass_cons_eq_ok.1 h
    have hfirst := unfolds_expandExpr ha f n
    have hmore := ih hrest
    simp only [blockHasCall_append, blockHasCall_cons, exists_mem_cons]
    grind

/-- The calls of known functions after a pass are those that the block led to. -/
theorem pass_unfolds {known : Table Definition} {ss : List Statement}
    (h : pass known c ss = .ok (out, c')) (hf : f ∈ known) :
    BlockHasCall out f n ↔ ∃ s ∈ ss, LeadsTo known s.value f n :=
  (blockHasCall_pass h).trans (or_iff_right fun hunknown => hunknown.1 hf)

theorem refines_expanded [Draws] {s : Statement} (hagree : AgreeOff c₀ σ τ)
    (htarget : ¬Fresh c₀ s.target)
    (hvalue : Refines (expr (registered ds) τ e) (expr (registered ds) σ s.value)) :
    Refines (assigned (registered ds) τ { s with value := e }) (assigned (registered ds) σ s) := by
  obtain ⟨target, op, value⟩ := s
  apply hvalue.bind
  intro v
  cases op with
  | set => exact .refl _
  | update op =>
    simp only [hagree target htarget]
    exact .refl _

theorem pass_simulated [Draws] (hds : Inlinable ds) (hshallow : Shallow ds) {ss : List Statement}
    (h : pass (Table.ofDefinitions ds) c ss = .ok (out, c'))
    (hss : ∀ x ∈ namesOf ss, ¬Fresh c₀ x) (hlater : ∀ x, Fresh c x → Fresh c₀ x)
    (hagree : AgreeOff c₀ σ τ) (hrun : statements (registered ds) τ out = .ok τ') :
    ∃ σ', statements (registered ds) σ ss = .ok σ' ∧ AgreeOff c₀ σ' τ' := by
  induction ss generalizing c out σ τ with
  | nil =>
    cases h
    cases hrun
    exact ⟨σ, rfl, hagree⟩
  | cons s ss ih =>
    obtain ⟨a, rest, ha, hrest, rfl⟩ := pass_cons_eq_ok.1 h
    obtain ⟨υ, hbefore, hrun⟩ := statements_append_eq_ok.1 hrun
    obtain ⟨v, hv, hrun⟩ := statements_cons_eq_ok.1 hrun
    have hcounted := hds.counted ha
    have hvalue : ∀ x ∈ s.value.identifiers, ¬Fresh c₀ x :=
      fun x hx => hss x (mem_namesOf_cons.2 (.inl (.inl hx)))
    have htarget : ¬Fresh c₀ s.target := hss s.target (mem_namesOf_cons.2 (.inl (.inr rfl)))
    have hstands := simulated_expandExpr hds hshallow ha hvalue hlater hagree hbefore
    have hagree' : AgreeOff c₀ σ υ := hagree.trans
      ((agreeOff_statements (fun s hs => hcounted.targets hs) hbefore).later hlater)
    have hassigned := refines_expanded hagree' htarget (hstands υ (.refl _ _)) v hv
    obtain ⟨σ', hσ', hfinal⟩ := ih hrest (fun x hx => hss x (mem_namesOf_cons.2 (.inr hx)))
      (fun x hx => hlater x (hcounted.later hx)) (hagree'.insert s.target v) hrun
    exact ⟨σ', statements_cons_eq_ok.2 ⟨v, hassigned, hσ'⟩, hfinal⟩

theorem statements_of_builtin [Draws] {ss : List Statement}
    (hcalled : ∀ f ∈ Statement.calledBy ss, (Table.ofDefinitions ds)[f]? = none)
    (hrun : statements (callWithin Interpreter.builtin depthLimit) σ ss = .ok τ) :
    statements (registered ds) σ ss = .ok τ := by
  have hcalls {σ τ : Scope} (_ : ∀ x : String, True → τ[x]? = σ[x]?) : ∀ s ∈ ss,
      ∀ f ∈ s.value.functions, ∀ sp vs, Refines
        (callWithin Interpreter.builtin depthLimit sp f vs τ) (registered ds sp f vs σ) := by
    intro s hs f hf sp vs
    have hnone := hcalled f (Statement.mem_calledBy.2 ⟨s, hs, hf⟩)
    rw [registered, callWithin_builtin hnone depthLimit depthLimit τ]
    exact .refl _
  have hstart : Agree ∅ (fun x => x ∈ (∅ : Names) ∨ True) σ σ :=
    fun x _ => by rw [Std.ExtTreeMap.getD_empty]
  rw [← Statement.map_renamed_empty ss] at hrun
  obtain ⟨σ', hσ', hagree⟩ := statements_renamed ∅ (.empty (fun _ => True) fun _ => True)
    (fun _ _ => trivial) (fun _ _ => trivial) hcalls (fun _ _ => trivial) hstart hrun
  have hsame : τ = σ' := by
    apply Std.ExtTreeMap.ext_getElem?
    intro x
    simpa using hagree x (.inr trivial)
  rw [hsame]
  exact hσ'

theorem callsKnown_eq_false (h : ss.any (callsKnown (Table.ofDefinitions ds)) = false) :
    ∀ f ∈ Statement.calledBy ss, (Table.ofDefinitions ds)[f]? = none := by
  intro f hf
  obtain ⟨s, hs, hf⟩ := Statement.mem_calledBy.1 hf
  cases hd : (Table.ofDefinitions ds)[f]? with
  | none => rfl
  | some d =>
    have hknown : callsKnown (Table.ofDefinitions ds) s = true :=
      any_eq_true_iff.2 ⟨f, hf, Table.mem_iff_getElem?.2 ⟨d, hd⟩⟩
    rw [List.any_eq_false] at h
    exact absurd hknown (h s hs)

theorem passes_simulated [Draws] (hds : Inlinable ds) (hshallow : Shallow ds) {ss : List Statement}
    (h : passes (Table.ofDefinitions ds) bound c ss = .ok out)
    (hss : ∀ x ∈ namesOf ss, ¬Fresh c x)
    (hsettled : ∀ f ∈ Statement.calledBy ss, Settled ds bound f)
    (hrun : statements (callWithin Interpreter.builtin depthLimit) σ out = .ok τ) :
    ∃ υ, statements (registered ds) σ ss = .ok υ ∧ ∀ x, ¬Reserved x → τ[x]? = υ[x]? := by
  induction bound generalizing c ss with
  | zero =>
    cases h
    exact ⟨τ, statements_of_builtin (fun f hf => (hsettled f hf).zero) hrun, fun _ _ => rfl⟩
  | succ bound ih =>
    rw [passes] at h
    split at h
    · obtain ⟨⟨ss', c'⟩, hpass, h⟩ := bind_eq_ok.1 h
      have hsettled' : ∀ f ∈ Statement.calledBy ss', Settled ds bound f := by
        intro f hf hknown
        obtain ⟨n, hn⟩ := mem_calledBy_iff_hasCall.1 hf
        obtain ⟨s, hs, g, m, d, hg, hd, hcall⟩ := (pass_unfolds hpass hknown).1 hn
        have hcalled := mem_calledBy_iff_hasCall.2 ⟨m, s, hs, hg⟩
        exact (hsettled g hcalled).of_calls hd (Definition.mem_calls_iff_hasCall.2 ⟨n, hcall⟩) hknown
      -- The later passes have been undone, so what is left to compare is one pass.
      obtain ⟨υ', hυ', hagree'⟩ := ih h (pass_settles hds hpass hss) hsettled'
      obtain ⟨υ, hυ, hagree⟩ :=
        pass_simulated hds hshallow hpass hss (fun _ => id) (.refl _ _) hυ'
      refine ⟨υ, hυ, fun x hx => ?_⟩
      exact (hagree' x hx).trans (hagree x fun hfresh => hx hfresh.reserved)
    · next hnone =>
      cases h
      have hcalled := callsKnown_eq_false (Bool.not_eq_true _ ▸ hnone)
      exact ⟨τ, statements_of_builtin hcalled hrun, fun _ _ => rfl⟩

end Formulae.Inline

namespace Formulae
open Inline Outcome

theorem Statement.inlineAll_eq_passes
    (hrange : usedUp? (countersFor (Table.ofDefinitions ds) ss) = none)
    (hcycle : (CallGraph.ofDefinitions (Table.ofDefinitions ds)).cycle? = none) :
    Statement.inlineAll ds ss = passes (Table.ofDefinitions ds)
      (Table.ofDefinitions ds).size (countersFor (Table.ofDefinitions ds) ss) ss := by
  simp only [inlineAll, hrange, hcycle]

theorem Statement.inlineAll_eq_ok (h : Statement.inlineAll ds ss = .ok out) :
    usedUp? (countersFor (Table.ofDefinitions ds) ss) = none ∧
      (CallGraph.ofDefinitions (Table.ofDefinitions ds)).cycle? = none ∧
      passes (Table.ofDefinitions ds) (Table.ofDefinitions ds).size
        (countersFor (Table.ofDefinitions ds) ss) ss = .ok out := by
  unfold inlineAll at h
  dsimp only at h
  split at h
  · cases h
  · cases h
  · next hrange hcycle => exact ⟨hrange, hcycle, h⟩

/-- Whatever a block computes with all calls of the definitions inlined, it computes when they are
called. Only the new names are left over. -/
theorem inlined_block_computes_alike [Draws] (hcount : ds.length ≤ 256) (hds : Inlinable ds)
    (hss : ∀ x ∈ namesOf ss, ¬Reserved x) (h : Statement.inlineAll ds ss = .ok out)
    (hrun : Interpreter.builtin.run scope out = .ok after') :
    ∃ after, (Interpreter.builtin.withDefinitions ds).run scope ss = .ok after ∧
      ∀ x, ¬Reserved x → after[x]? = after'[x]? := by
  obtain ⟨-, hcycle, hpasses⟩ := Statement.inlineAll_eq_ok h
  have hsettled (f : String) : Eval.Settled ds (Table.ofDefinitions ds).size f :=
    CallGraph.settledAfter_size (CallGraph.cycle?_eq_none_iff_acyclic.1 hcycle)
  have hshallow : Shallow ds := ⟨_, Nat.le_trans (size_ofDefinitions_le ds) hcount, hsettled⟩
  obtain ⟨after, hafter, hagree⟩ := passes_simulated hds hshallow hpasses
    (fun x hx hfresh => hss x hx hfresh.reserved) (fun f _ => hsettled f) hrun
  exact ⟨after, hafter, fun x hx => (hagree x hx).symm⟩

/-- A call that is not reached, of a function whose body calls another one. -/
theorem inlined_block_computes_alike_nested :
    let _ : Draws := .middle
    let twice : Definition :=
      ⟨"twice", ["a"], [], some (.binary .add (.var "a" .zero) (.var "a" .zero) .zero)⟩
    let shift : Definition :=
      ⟨"shift", ["a"], [⟨"b", .set, .call "twice" [.var "a" .zero] .zero⟩],
        some (.binary .add (.var "b" .zero) (.var "g" .zero) .zero)⟩
    let ss : List Statement :=
      [⟨"y", .set, .logical .and [.var "x" .zero, .call "shift" [.var "g" .zero] .zero] .zero⟩]
    let scope : Scope := Table.ofList [("g", .number 3), ("x", .bool false)]
    ∃ out after' after, Statement.inlineAll [twice, shift] ss = .ok out ∧
      Statement.blockText out = "_inline_shift_0_a = g\n_inline_twice_0_a = _inline_shift_0_a\n" ++
        "_inline_shift_0_b = _inline_twice_0_a + _inline_twice_0_a\n" ++
        "y = x and _inline_shift_0_b + g" ∧
      Interpreter.builtin.run scope out = .ok after' ∧
      (Interpreter.builtin.withDefinitions [twice, shift]).run scope ss = .ok after ∧
      ∀ x, ¬Reserved x → after[x]? = after'[x]? := by
  intro _ twice shift ss scope
  have hblock : ∀ x ∈ namesOf ss, ¬Reserved x := by
    have hall : ((namesOf ss).all fun x => !decide (Reserved x)) = true := by decide +kernel
    simpa [all_eq_true_iff] using hall
  have hpasses : (passes (Table.ofDefinitions [twice, shift])
      (Table.ofDefinitions [twice, shift]).size
      (countersFor (Table.ofDefinitions [twice, shift]) ss) ss).map (fun out =>
        (Statement.blockText out, (Interpreter.builtin.run scope out).isOk)) =
      .ok ("_inline_shift_0_a = g\n_inline_twice_0_a = _inline_shift_0_a\n" ++
        "_inline_shift_0_b = _inline_twice_0_a + _inline_twice_0_a\n" ++
        "y = x and _inline_shift_0_b + g", true) := by
    decide +kernel
  obtain ⟨out, hout, htext⟩ := map_eq_ok.1 hpasses
  obtain ⟨htext, hok⟩ := Prod.mk.inj htext
  have hinline : Statement.inlineAll [twice, shift] ss = .ok out :=
    (Statement.inlineAll_eq_passes (by decide +kernel) (by decide +kernel)).trans hout
  cases hrun : Interpreter.builtin.run scope out with
  | error stop =>
    rw [hrun] at hok
    cases hok
  | ok after' =>
    obtain ⟨after, hafter, hagree⟩ :=
      inlined_block_computes_alike (by decide) (by decide +kernel) hblock hinline hrun
    exact ⟨out, after', after, hinline, htext, hrun, hafter, hagree⟩

end Formulae
