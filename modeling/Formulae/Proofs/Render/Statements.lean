import Formulae.Proofs.Render.Agreement
import Formulae.Proofs.Render.Plain

namespace Formulae
open Eval Outcome
open Token (IsName)
set_option autoImplicit true

/-- The statement that the text for a backend is of. -/
def Statement.writtenFor (b : Backend) (s : Statement) : Statement :=
  match s.op with
  | .set => s
  | .update op => if b.isBetween op then s else s.expanded

/-- What ends a line of code. -/
def Backend.terminator : Backend → String
  | array => ""
  | cpp => ";"

theorem Statement.writtenFor_cases (b : Backend) (s : Statement) :
    s.writtenFor b = s ∨ s.writtenFor b = s.expanded := by
  unfold writtenFor
  split
  · exact .inl rfl
  · split
    · exact .inl rfl
    · exact .inr rfl

@[simp] theorem Statement.target_expanded (s : Statement) : s.expanded.target = s.target := by
  unfold expanded
  split <;> rfl

@[simp] theorem Statement.target_writtenFor (b : Backend) (s : Statement) :
    (s.writtenFor b).target = s.target := by
  rcases s.writtenFor_cases b with h | h <;> simp [h]

theorem Statement.backendText_eq (b : Backend) (s : Statement) :
    s.backendText b = s.target ++ " " ++ (s.writtenFor b).op.symbol ++ " " ++
      (s.writtenFor b).value.backendText b ++ b.terminator := by
  rw [← s.target_writtenFor b]
  cases b with
  | array =>
    rw [Backend.terminator, String.append_empty]
    rfl
  | cpp => rfl

theorem assigned_update_eq_ok {call : Caller} :
    assigned call σ ⟨x, .update op, e⟩ = .ok v ↔
      ∃ old w, σ[x]? = some old ∧ expr call σ e = .ok w ∧ .binary op old w = v := by
  simp only [assigned, bind_eq_ok]
  cases σ[x]? <;> simp

/-- An update succeeds where the assignment that it stands for does, with the same value. -/
theorem assigned_expanded_eq_ok {call : Caller} {s : Statement} :
    assigned call σ s.expanded = .ok v ↔ assigned call σ s = .ok v := by
  obtain ⟨x, op, e⟩ := s
  cases op with
  | set => rfl
  | update op =>
    rw [assigned_update_eq_ok]
    simp only [Statement.expanded, assigned, expr, bind_eq_ok]
    cases σ[x]? <;> simp

theorem assigned_writtenFor_eq_ok {call : Caller} (b : Backend) {s : Statement} :
    assigned call σ (s.writtenFor b) = .ok v ↔ assigned call σ s = .ok v := by
  rcases s.writtenFor_cases b with h | h
  · rw [h]
  · rw [h, assigned_expanded_eq_ok]

theorem assigned_congr {call : Caller} (h : ∀ w, expr call σ r = .ok w ↔ expr call σ e = .ok w) :
    assigned call σ ⟨x, op, r⟩ = .ok v ↔ assigned call σ ⟨x, op, e⟩ = .ok v := by
  simp only [assigned, bind_eq_ok, h]

theorem Interpreter.run_single_eq_ok {fs : Interpreter} {s : Statement} :
    fs.run σ [s] = .ok τ ↔
      ∃ v, assigned (callWithin fs depthLimit) σ s = .ok v ∧ σ.insert s.target v = τ := by
  rw [run, statements]
  split
  · next v hv => simp [hv, statements]
  · next f hf => simp [hf]

/-- The tree that the text for a backend is read as has the values of the expression. -/
theorem Legible.eval_backendText [Draws] (b : Backend) (h : Legible (IsName .rendered) e) :
    ∃ r, Expr.parse .rendered (e.backendText b) = .ok r ∧
      ∀ ds : List Definition, (∀ d ∈ ds, ∀ x ∈ Interpreter.helpers, d.name ≠ x.1) → ∀ scope v,
        (Interpreter.builtin.withDefinitions ds).eval scope r = .ok v ↔
          (Interpreter.builtin.withDefinitions ds).eval scope e = .ok v := by
  obtain ⟨r, hr, htree⟩ := map_eq_ok.1 (h.written_backendText b).parse
  refine ⟨r, hr, fun ds hds scope v => ?_⟩
  have hplaces := unplaced_callWithin (Interpreter.builtin.withDefinitions ds) depthLimit
  have hspans := reported_eraseSpans hplaces scope r
  have htrees := reported_backendTree b hplaces (helped_withDefinitions hds depthLimit) h scope
  rw [htree, htrees] at hspans
  rw [← reported_eq_ok, ← reported_eq_ok]
  exact (congrArg (· = .ok v) hspans).symm.to_iff

theorem Statement.Legible.writtenFor (b : Backend) (h : Statement.Legible .equation s)
    (hnames : ∀ x ∈ ["true", "false"],
      x ≠ s.target ∧ x ∉ s.value.identifiers ∧ x ∉ s.value.functions) :
    Formulae.Legible (IsName .rendered) (s.writtenFor b).value := by
  have hvalue : Formulae.Legible (IsName .rendered) s.value := by
    apply h.value.imp
    intro x hx hname
    apply hname.rendered
    intro hword
    exact hx.elim (hnames x hword).2.1 (hnames x hword).2.2
  have htarget : IsName .rendered s.target :=
    h.target.rendered fun hword => (hnames _ hword).1 rfl
  unfold Statement.writtenFor
  split
  · exact hvalue
  · next op hop =>
    split
    · exact hvalue
    · simp only [Statement.expanded, hop]
      exact .binary (.var htarget) hvalue

/-- The line that a backend writes for a statement assigns to the same name. Its right side is read,
and what it assigns is what the statement assigns, for the same scopes; unless a name is a word of
the backends or a definition replaces one of their helpers. -/
theorem backend_line_runs_alike [Draws] (b : Backend) {line : String}
    (hparse : Statement.parse line = .ok s)
    (hnames : ∀ x ∈ ["true", "false"],
      x ≠ s.target ∧ x ∉ s.value.identifiers ∧ x ∉ s.value.functions) :
    ∃ op text r,
      s.backendText b = s.target ++ " " ++ AssignOp.symbol op ++ " " ++ text ++ b.terminator ∧
      Expr.parse .rendered text = .ok r ∧
      ∀ ds : List Definition, (∀ d ∈ ds, d.name ∉ ["pow", "fmod", "logical_not"]) →
        ∀ scope after,
          (Interpreter.builtin.withDefinitions ds).run scope [⟨s.target, op, r⟩] = .ok after ↔
            (Interpreter.builtin.withDefinitions ds).run scope [s] = .ok after := by
  have hlegible := (Statement.legible_of_statementLine hparse).writtenFor b hnames
  obtain ⟨r, hr, hagree⟩ := hlegible.eval_backendText b
  refine ⟨_, _, r, s.backendText_eq b, hr, fun ds hds scope after => ?_⟩
  have hhelpers : ∀ d ∈ ds, ∀ x ∈ Interpreter.helpers, d.name ≠ x.1 := by
    intro d hd x hx hname
    exact hds d hd (hname ▸ List.mem_map_of_mem (f := Prod.fst) hx)
  have hassigned (v : Value) :
      assigned (callWithin (Interpreter.builtin.withDefinitions ds) depthLimit) scope
          ⟨s.target, (s.writtenFor b).op, r⟩ = .ok v ↔
        assigned (callWithin (Interpreter.builtin.withDefinitions ds) depthLimit) scope s =
          .ok v := by
    rw [assigned_congr (hagree ds hhelpers scope), ← s.target_writtenFor b]
    exact assigned_writtenFor_eq_ok b
  simp only [Interpreter.run_single_eq_ok, hassigned]

/-- A power of the target stays an update for arrays and is a call in C++. -/
theorem backend_line_runs_alike_power :
    let _ : Draws := .middle
    let double : Definition :=
      ⟨"double", ["a"], [], some (.binary .add (.var "a" .zero) (.var "a" .zero) .zero)⟩
    ∃ s, Statement.parse "x **= -double(y)" = .ok s ∧
      s.backendText .array = "x **= -double(y)" ∧
      s.backendText .cpp = "x = pow(x, -double(y));" ∧
      ∀ b, ∃ op text r,
        s.backendText b = s.target ++ " " ++ AssignOp.symbol op ++ " " ++ text ++ b.terminator ∧
        Expr.parse .rendered text = .ok r ∧
        ∀ scope after,
          (Interpreter.builtin.withDefinitions [double]).run scope [⟨s.target, op, r⟩] =
              .ok after ↔
            (Interpreter.builtin.withDefinitions [double]).run scope [s] = .ok after := by
  intro _ double
  have hread : (Statement.parse "x **= -double(y)").map (fun s =>
      (s.backendText .array, s.backendText .cpp, ["true", "false"].any fun x =>
        x == s.target || s.value.identifiers.contains x || s.value.functions.contains x)) =
      .ok ("x **= -double(y)", "x = pow(x, -double(y));", false) := by
    decide +kernel
  obtain ⟨s, hs, htexts⟩ := map_eq_ok.1 hread
  simp only [Prod.mk.injEq, List.any_eq_false, Bool.or_eq_true, beq_iff_eq, not_or] at htexts
  obtain ⟨harray, hcpp, hnames⟩ := htexts
  refine ⟨s, hs, harray, hcpp, fun b => ?_⟩
  obtain ⟨op, text, r, htext, hr, hagree⟩ := backend_line_runs_alike b hs fun x hx =>
    ⟨(hnames x hx).1.1, (hnames x hx).1.2, (hnames x hx).2⟩
  exact ⟨op, text, r, htext, hr, hagree [double] (by decide)⟩

end Formulae
