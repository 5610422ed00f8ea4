import Formulae.Proofs.CallGraph
import Formulae.Proofs.Inline.Calls
import Formulae.Proofs.Inline.Passes

namespace Formulae.Inline
open Outcome
set_option autoImplicit true

variable {known : Table Definition}

theorem decides_pass (c : Counters) (ss : List Statement) :
    Decides (∀ s ∈ ss, CallsFit known s.value) (pass known c ss) := by
  induction ss generalizing c with
  | nil => simp [pass, Decides]
  | cons s ss ih =>
    rw [List.forall_mem_cons]
    apply (decides_expandExpr known c s.value).bind
    intro a _
    exact (ih a.counters).then

theorem any_callsKnown {ss : List Statement} :
    ss.any (callsKnown known) = true ↔ ∃ f n, f ∈ known ∧ BlockHasCall ss f n := by
  simp only [List.any_eq_true, callsKnown, any_eq_true_iff, Expr.mem_functions_iff_hasCall,
    BlockHasCall]
  constructor
  · rintro ⟨s, hs, f, ⟨n, hcall⟩, hf⟩
    exact ⟨f, n, hf, s, hs, hcall⟩
  · rintro ⟨f, n, hf, s, hs, hcall⟩
    exact ⟨s, hs, f, ⟨n, hcall⟩, hf⟩

/-- Is there a call of the function with so many arguments in the block, or in the definition of a
known function that is reached? -/
inductive Reached (known : Table Definition) (ss : List Statement) : String → Nat → Prop
  | block : BlockHasCall ss f n → Reached known ss f n
  | definition : Reached known ss g m → known[g]? = some d → d.HasCall f n →
      Reached known ss f n

/-- Do all calls of known functions that are reached fit their definitions? -/
def ReachedFit (known : Table Definition) (ss : List Statement) : Prop :=
  ∀ f n d, Reached known ss f n → known[f]? = some d → d.Fits n

/-- After a pass, the calls are reached that were reached through a definition. -/
theorem reached_pass {ss : List Statement} (h : pass known c ss = .ok (out, c')) (hf : f ∈ known) :
    Reached known out f n ↔
      ∃ g m d, Reached known ss g m ∧ known[g]? = some d ∧ d.HasCall f n := by
  constructor
  · intro hreached
    induction hreached with
    | block hcall =>
      obtain ⟨s, hs, g, m, d, hg, hd, hcall⟩ := (pass_unfolds h hf).1 hcall
      exact ⟨g, m, d, .block ⟨s, hs, hg⟩, hd, hcall⟩
    | @definition g m d f n _ hd hcall ih =>
      obtain ⟨g', m', d', hreached, hd', hcall'⟩ := ih (Table.mem_iff_getElem?.2 ⟨d, hd⟩)
      exact ⟨g, m, d, .definition hreached hd' hcall', hd, hcall⟩
  · rintro ⟨g, m, d, hreached, hd, hcall⟩
    induction hreached generalizing d f n with
    | block hg =>
      obtain ⟨s, hs, hg⟩ := hg
      exact .block ((pass_unfolds h hf).2 ⟨s, hs, _, _, d, hg, hd, hcall⟩)
    | definition _ hd' hcall' ih =>
      exact .definition (ih (Table.mem_iff_getElem?.2 ⟨d, hd⟩) _ hd' hcall') hd hcall

theorem reachedFit_pass {ss : List Statement} (h : pass known c ss = .ok (out, c')) :
    ReachedFit known ss ↔ ReachedFit known out := by
  constructor
  · intro hfit f n d hreached hd
    obtain ⟨g, m, d', hg, hd', hcall⟩ :=
      (reached_pass h (Table.mem_iff_getElem?.2 ⟨d, hd⟩)).1 hreached
    exact hfit f n d (.definition hg hd' hcall) hd
  · intro hfit f n d hreached hd
    cases hreached with
    | block hcall =>
      obtain ⟨s, hs, hcall⟩ := hcall
      have hpassed : ∀ s ∈ ss, CallsFit known s.value := (decides_pass c ss).of_eq_ok h
      exact hpassed s hs f n d hcall hd
    | definition hg hd' hcall =>
      exact hfit f n d ((reached_pass h (Table.mem_iff_getElem?.2 ⟨d, hd⟩)).2
        ⟨_, _, _, hg, hd', hcall⟩) hd

/-- Without a call of a known function, none is reached. -/
theorem not_reached_of_not_called {ss : List Statement}
    (h : ss.any (callsKnown known) = false) (hf : f ∈ known) : ¬Reached known ss f n := by
  intro hreached
  rw [← Bool.not_eq_true, any_callsKnown] at h
  induction hreached with
  | block hcall => exact h ⟨_, _, hf, hcall⟩
  | definition _ hd _ ih => exact ih (Table.mem_iff_getElem?.2 ⟨_, hd⟩)

theorem reachedFit_of_not_called {ss : List Statement} (h : ss.any (callsKnown known) = false) :
    ReachedFit known ss :=
  fun _ _ d hreached hd =>
    absurd hreached (not_reached_of_not_called h (Table.mem_iff_getElem?.2 ⟨d, hd⟩))

/-- Are all known functions that the block calls settled after so many rounds? -/
def CalledSettled (known : Table Definition) (rounds : Nat) (ss : List Statement) : Prop :=
  ∀ f n, f ∈ known → BlockHasCall ss f n →
    CallGraph.SettledAfter known rounds f

theorem CalledSettled.pass {ss : List Statement} (hss : CalledSettled known (rounds + 1) ss)
    (h : pass known c ss = .ok (out, c')) : CalledSettled known rounds out := by
  intro f n hf hcall
  obtain ⟨s, hs, g, m, d, hg, hd, hcall⟩ := (pass_unfolds h hf).1 hcall
  have hsettled := hss g m (Table.mem_iff_getElem?.2 ⟨d, hd⟩) ⟨s, hs, hg⟩
  exact hsettled.of_calls hd (Definition.mem_calls_iff_hasCall.2 ⟨n, hcall⟩) hf

theorem CalledSettled.zero {ss : List Statement} (h : CalledSettled known 0 ss) :
    ss.any (callsKnown known) = false := by
  rw [← Bool.not_eq_true, any_callsKnown]
  rintro ⟨f, n, hf, hcall⟩
  exact h f n hf hcall

/-- Passes are made for as long as a known function is called, without any bound: so many have been
made when the loop ends with an outcome. -/
inductive Loop (known : Table Definition) :
    Nat → Counters → List Statement → Except Fault (List Statement) → Prop
  | done : ss.any (callsKnown known) = false → Loop known 0 c ss (.ok ss)
  | fault {c : Counters} {ss : List Statement} : ss.any (callsKnown known) = true →
      pass known c ss = .error fault → Loop known 1 c ss (.error fault)
  | step : ss.any (callsKnown known) = true → pass known c ss = .ok (ss', c') →
      Loop known n c' ss' outcome → Loop known (n + 1) c ss outcome

theorem Loop.not_called (h : Loop known n c ss (.ok out)) :
    out.any (callsKnown known) = false := by
  generalize houtcome : (Except.ok out : Except Fault (List Statement)) = outcome at h
  induction h with
  | done hnone =>
    cases houtcome
    exact hnone
  | fault => cases houtcome
  | step _ _ _ ih => exact ih houtcome

theorem Loop.decides (h : Loop known n c ss outcome) : Decides (ReachedFit known ss) outcome := by
  induction h with
  | done hnone => exact reachedFit_of_not_called hnone
  | @fault _ c ss _ hpass =>
    have hdecides : Decides (∀ s ∈ ss, CallsFit known s.value) (pass known c ss) :=
      decides_pass c ss
    rw [hpass] at hdecides
    refine hdecides.imp_right fun ⟨hunfit, hne⟩ => ⟨fun hfit => hunfit ?_, hne⟩
    intro s hs f n d hcall
    exact hfit f n d (.block ⟨s, hs, hcall⟩)
  | step _ hpass _ ih => exact ih.congr (reachedFit_pass hpass).symm

/-- The bound on the number of passes is never what ends them. -/
theorem loop_passes {ss : List Statement} (h : CalledSettled known bound ss) (c : Counters) :
    ∃ n ≤ bound, Loop known n c ss (passes known bound c ss) := by
  induction bound generalizing ss c with
  | zero => exact ⟨0, Nat.le_refl 0, .done h.zero⟩
  | succ bound ih =>
    rw [passes]
    cases hcalled : ss.any (callsKnown known) with
    | false => exact ⟨0, Nat.zero_le _, .done hcalled⟩
    | true =>
      rw [if_pos rfl]
      cases hpass : pass known c ss with
      | error fault => exact ⟨1, Nat.le_add_left 1 bound, .fault hcalled hpass⟩
      | ok after =>
        obtain ⟨n, hn, hloop⟩ := ih (h.pass hpass) after.2
        exact ⟨n + 1, Nat.succ_le_succ hn, .step hcalled hpass hloop⟩

end Formulae.Inline

namespace Formulae
open Inline Outcome

variable {ds : List Definition} {ss : List Statement}

/-- Without recursion the passes end by themselves, and their outcome is the one of inlining. -/
theorem loop_inlineAll (hrange : usedUp? (countersFor (Table.ofDefinitions ds) ss) = none)
    (hcycle : (CallGraph.ofDefinitions (Table.ofDefinitions ds)).cycle? = none) :
    ∃ n ≤ (Table.ofDefinitions ds).size,
      Loop (Table.ofDefinitions ds) n (countersFor (Table.ofDefinitions ds) ss) ss
        (Statement.inlineAll ds ss) := by
  rw [Statement.inlineAll_eq_passes hrange hcycle]
  apply loop_passes
  intro f n hf _
  exact CallGraph.settledAfter_size (CallGraph.cycle?_eq_none_iff_acyclic.1 hcycle) hf

theorem loop_of_inlineAll (h : Statement.inlineAll ds ss = .ok out) :
    ∃ n, Loop (Table.ofDefinitions ds) n (countersFor (Table.ofDefinitions ds) ss) ss (.ok out) := by
  obtain ⟨hrange, hcycle, -⟩ := Statement.inlineAll_eq_ok h
  obtain ⟨n, -, hloop⟩ := loop_inlineAll hrange hcycle
  rw [h] at hloop
  exact ⟨n, hloop⟩

end Formulae
