import Formulae.Proofs.Dependencies
import Formulae.Proofs.Inline.Ending

namespace Formulae
set_option autoImplicit true

/-- The names that are read and are neither parameters nor locals. -/
def Definition.globals (d : Definition) : Names :=
  (Statement.readBy d.body ∪ d.resultReads) \ d.ownNames

namespace Inline
open Outcome

variable {known : Table Definition}

/-- A call that has been inlined, by its definition and its number. -/
structure InlinedCall where
  definition : Definition
  number : Nat

namespace InlinedCall

def name (k : InlinedCall) : String := k.definition.name

/-- Is this the new name of a parameter or of a local for the call? -/
def Gives (k : InlinedCall) (x : String) : Prop :=
  ∃ y ∈ k.definition.ownNames, newName k.name k.number y = x

/-- May the name get into a block with the body for the call? -/
def Brings (k : InlinedCall) (x : String) : Prop := k.Gives x ∨ x ∈ k.definition.globals

end InlinedCall

/-- The calls that are inlined in expressions one after the other, those in the arguments of a call
before the call itself. -/
inductive Inlines (known : Table Definition) :
    Counters → List Expr → List InlinedCall → Counters → Prop
  | nil : Inlines known c [] [] c
  | node : (∀ f, e.callee? = some f → known[f]? = none) →
      Inlines known c e.operands calls c' → Inlines known c' es calls' c'' →
      Inlines known c (e :: es) (calls ++ calls') c''
  | call : known[f]? = some d → Inlines known c args calls c' →
      Inlines known (c'.insert d.name (c'.getD d.name 0 + 1)) es calls' c'' →
      Inlines known c (.call f args sp :: es) (calls ++ ⟨d, c'.getD d.name 0⟩ :: calls') c''

/-- The calls that are inlined in all passes over a block. -/
inductive InlinesAll (known : Table Definition) :
    Counters → List Statement → List InlinedCall → Prop
  | done : ss.any (callsKnown known) = false → InlinesAll known c ss []
  | step : ss.any (callsKnown known) = true → pass known c ss = .ok (ss', c') →
      Inlines known c (ss.map (·.value)) calls c' → InlinesAll known c' ss' calls' →
      InlinesAll known c ss (calls ++ calls')

theorem Inlines.var (x : String) (sp : Span) : Inlines known c [.var x sp] [] c := by
  have hcallee (f : String) (hf : (Expr.var x sp).callee? = some f) : known[f]? = none := by
    cases hf
  exact .node hcallee .nil .nil

theorem Inlines.append {es es' : List Expr}
    (h : Inlines known c es calls c') (h' : Inlines known c' es' calls' c'') :
    Inlines known c (es ++ es') (calls ++ calls') c'' := by
  induction h with
  | nil => exact h'
  | node hcallee hoperands _ _ ih =>
    rw [List.append_assoc]
    exact .node hcallee hoperands (ih h')
  | call hd hargs _ _ ih =>
    rw [List.append_assoc]
    exact .call hd hargs (ih h')

/-- The calls for the expansions one after the other, for each of which a number was left, and the
names that they have brought in. -/
def Traced (known : Table Definition) (c : Counters) (e : Expr) (a : Expansion Expr) : Prop :=
  ∃ calls, Inlines known c [e] calls a.counters ∧ (∀ k ∈ calls, k.number < greatestNumber) ∧
    ∀ x, x ∈ a.value.identifiers ∨ x ∈ namesOf a.before →
      x ∈ e.identifiers ∨ ∃ k ∈ calls, k.Brings x

theorem Chain.traced (h : Chain known (Traced known) c es b) :
    ∃ calls, Inlines known c es calls b.counters ∧ (∀ k ∈ calls, k.number < greatestNumber) ∧
      ∀ x, (∃ e ∈ b.value, x ∈ e.identifiers) ∨ x ∈ namesOf b.before →
        (∃ e ∈ es, x ∈ e.identifiers) ∨ ∃ k ∈ calls, k.Brings x := by
  induction h with
  | nil => exact ⟨[], .nil, by simp, by simp [mem_namesOf]⟩
  | cons _ ha _ ih =>
    obtain ⟨calls, hcalls, hrange, hnames⟩ := ha
    obtain ⟨calls', hcalls', hrange', hnames'⟩ := ih
    refine ⟨calls ++ calls', hcalls.append hcalls', List.forall_mem_append.2 ⟨hrange, hrange'⟩, ?_⟩
    intro x hx
    have hfirst := hnames x
    have hrest := hnames' x
    simp only [exists_mem_cons, mem_namesOf_append, exists_mem_append] at hx ⊢
    grind

theorem brings_renamed (d : Definition) (n : Nat) (hx : x ∈ allNames d) :
    InlinedCall.Brings ⟨d, n⟩ ((newNames d n).getD x x) := by
  rw [getD_newNames]
  split
  · next hown => exact .inl ⟨x, hown, rfl⟩
  · next hown =>
    right
    rw [Definition.globals, mem_sdiff_iff, mem_union_iff]
    refine ⟨?_, hown⟩
    rw [allNames, mem_union_iff, mem_union_iff, mem_namesOf] at hx
    rcases hx with (hx | ⟨s, hs, hx⟩) | hx
    · exact absurd (Definition.mem_ownNames.2 (.inl (mem_ofList_iff.1 hx))) hown
    · left
      rcases mem_reads_or_target.2 hx with hx | hx
      · exact Statement.mem_readBy.2 ⟨s, hs, hx⟩
      · exact absurd (Definition.mem_ownNames.2 (.inr ⟨s, hs, hx⟩)) hown
    · exact .inr hx

theorem traced_expandExpr (h : expandExpr known c e = .ok a) : Traced known c e a := by
  apply expandExpr_induct (P := Traced known) _ _ h
  · intro c e b hcallee hb
    obtain ⟨calls, hcalls, hrange, hnames⟩ := hb.traced
    refine ⟨calls ++ [], .node hcallee hcalls .nil, by rwa [List.append_nil], ?_⟩
    intro x hx
    rw [Expr.mem_identifiers, Expr.ident?_withOperands,
      Expr.operands_withOperands hb.length] at hx
    rw [Expr.mem_identifiers, List.append_nil]
    have hoperands := hnames x
    grind
  · intro c f args sp d b r hd hb hr
    obtain ⟨calls, hcalls, hrange, hnames⟩ := hb.traced
    have hcounters : r.counters = b.counters.insert d.name (b.counters.getD d.name 0 + 1) := by
      obtain ⟨-, -, e, -, rfl⟩ := expandCall_eq_ok hr
      rfl
    refine ⟨calls ++ [⟨d, b.counters.getD d.name 0⟩], ?_, ?_, ?_⟩
    · dsimp only
      rw [hcounters]
      exact .call hd hcalls .nil
    · exact List.forall_mem_append.2
        ⟨hrange, List.forall_mem_singleton.2 (expandCall_eq_ok hr).2.1⟩
    · intro x hx
      have hargs (hx : (∃ e ∈ b.value, x ∈ e.identifiers) ∨ x ∈ namesOf b.before) :
          x ∈ (Expr.call f args sp).identifiers ∨ ∃ k ∈ calls, k.Brings x :=
        (hnames x hx).imp_left fun hx => Expr.mem_identifiers.2 (.inr hx)
      rw [exists_mem_append, ← or_assoc]
      rw [mem_namesOf_append, or_left_comm] at hx
      rcases hx with hx | hx
      · exact .inl (hargs (.inr hx))
      · rcases mem_names_expandCall hr hx with hx | ⟨y, hy, rfl⟩
        · exact .inl (hargs (.inl hx))
        · exact .inr ⟨_, List.mem_singleton_self _, brings_renamed d _ hy⟩

theorem exists_inlines_pass {ss : List Statement} (h : pass known c ss = .ok (out, c')) :
    ∃ calls, Inlines known c (ss.map (·.value)) calls c' ∧
      (∀ k ∈ calls, k.number < greatestNumber) ∧
      ∀ x ∈ namesOf out, x ∈ namesOf ss ∨ ∃ k ∈ calls, k.Brings x := by
  induction ss generalizing c out with
  | nil =>
    cases h
    exact ⟨[], .nil, by simp, fun x hx => .inl hx⟩
  | cons s ss ih =>
    obtain ⟨a, rest, ha, hrest, rfl⟩ := pass_cons_eq_ok.1 h
    obtain ⟨calls, hcalls, hrange, hnames⟩ := traced_expandExpr ha
    obtain ⟨calls', hcalls', hrange', hnames'⟩ := ih hrest
    refine ⟨calls ++ calls', hcalls.append hcalls', List.forall_mem_append.2 ⟨hrange, hrange'⟩, ?_⟩
    intro x hx
    have hfirst := hnames x
    have hmore := hnames' x
    simp only [mem_namesOf_append, mem_namesOf_cons, exists_mem_append] at hx ⊢
    grind

theorem Loop.exists_inlinesAll (h : Loop known n c ss (.ok out)) :
    ∃ calls, InlinesAll known c ss calls ∧
      ∀ x ∈ namesOf out, x ∈ namesOf ss ∨ ∃ k ∈ calls, k.Brings x := by
  generalize houtcome : (Except.ok out : Except Fault (List Statement)) = outcome at h
  induction h with
  | done hnone =>
    cases houtcome
    exact ⟨[], .done hnone, fun x hx => .inl hx⟩
  | fault => cases houtcome
  | step hcalled hpass _ ih =>
    obtain ⟨calls, hcalls, -, hnames⟩ := exists_inlines_pass hpass
    obtain ⟨calls', hcalls', hnames'⟩ := ih houtcome
    refine ⟨calls ++ calls', .step hcalled hpass hcalls hcalls', ?_⟩
    intro x hx
    rw [exists_mem_append]
    rcases hnames' x hx with hx | hx
    · exact (hnames x hx).imp_right .inl
    · exact .inr (.inr hx)

theorem Inlines.unique (h : Inlines known c es calls c') (h' : Inlines known c es calls' c'') :
    calls = calls' ∧ c' = c'' := by
  induction h generalizing calls' c'' with
  | nil =>
    cases h'
    exact ⟨rfl, rfl⟩
  | node hcallee _ _ ih ih' =>
    cases h' with
    | node _ hoperands hrest =>
      obtain ⟨rfl, rfl⟩ := ih hoperands
      obtain ⟨rfl, rfl⟩ := ih' hrest
      exact ⟨rfl, rfl⟩
    | call hd =>
      rw [hcallee _ rfl] at hd
      cases hd
  | call hd _ _ ih ih' =>
    cases h' with
    | node hcallee =>
      rw [hcallee _ rfl] at hd
      cases hd
    | call hd' hargs hrest =>
      obtain rfl := Option.some.inj (hd.symm.trans hd')
      obtain ⟨rfl, rfl⟩ := ih hargs
      obtain ⟨rfl, rfl⟩ := ih' hrest
      exact ⟨rfl, rfl⟩

theorem InlinesAll.unique {ss : List Statement} (h : InlinesAll known c ss calls)
    (h' : InlinesAll known c ss calls') : calls = calls' := by
  induction h generalizing calls' with
  | done hnone =>
    cases h' with
    | done => rfl
    | step hcalled =>
      rw [hnone] at hcalled
      cases hcalled
  | step hcalled hpass hcalls _ ih =>
    cases h' with
    | done hnone =>
      rw [hnone] at hcalled
      cases hcalled
    | step _ hpass' hcalls' hrest =>
      cases hpass.symm.trans hpass'
      obtain ⟨rfl, -⟩ := hcalls.unique hcalls'
      rw [ih hrest]

/-- The numbers of calls that have been inlined are machine words. -/
theorem InlinesAll.in_range {ss : List Statement} (h : InlinesAll known c ss calls) :
    ∀ k ∈ calls, k.number < greatestNumber := by
  induction h with
  | done => simp
  | step _ hpass hcalls _ ih =>
    obtain ⟨calls', hcalls', hrange, -⟩ := exists_inlines_pass hpass
    obtain ⟨rfl, -⟩ := hcalls.unique hcalls'
    exact List.forall_mem_append.2 ⟨hrange, ih⟩

/-- Calls that are numbered between two counts, each of them later than those of the same function
before it. -/
structure Numbered (c : Counters) (calls : List InlinedCall) (c' : Counters) : Prop where
  mono : ∀ f, c.getD f 0 ≤ c'.getD f 0
  range : ∀ k ∈ calls, c.getD k.name 0 ≤ k.number ∧ k.number < c'.getD k.name 0
  rising : calls.Pairwise fun a b => a.name = b.name → a.number < b.number

theorem Numbered.nil (c : Counters) : Numbered c [] c :=
  ⟨fun _ => Nat.le_refl _, nofun, .nil⟩

theorem Numbered.append (h : Numbered c calls c') (h' : Numbered c' calls' c'') :
    Numbered c (calls ++ calls') c'' where
  mono f := Nat.le_trans (h.mono f) (h'.mono f)
  range := by
    intro k hk
    rcases List.mem_append.1 hk with hk | hk
    · exact ⟨(h.range k hk).1, Nat.lt_of_lt_of_le (h.range k hk).2 (h'.mono _)⟩
    · exact ⟨Nat.le_trans (h.mono _) (h'.range k hk).1, (h'.range k hk).2⟩
  rising := by
    rw [List.pairwise_append]
    refine ⟨h.rising, h'.rising, ?_⟩
    intro a ha b hb hname
    have hle := (h'.range b hb).1
    rw [← hname] at hle
    exact Nat.lt_of_lt_of_le (h.range a ha).2 hle

theorem numbered_single (d : Definition) (c : Counters) :
    Numbered c [⟨d, c.getD d.name 0⟩] (c.insert d.name (c.getD d.name 0 + 1)) where
  mono f := by
    rw [Table.getD_insert]
    split
    · next hf =>
      subst hf
      exact Nat.le_succ _
    · exact Nat.le_refl _
  range := by
    intro k hk
    obtain rfl := List.mem_singleton.1 hk
    rw [InlinedCall.name, Table.getD_insert, if_pos rfl]
    exact ⟨Nat.le_refl _, Nat.lt_succ_self _⟩
  rising := List.pairwise_singleton _ _

theorem Inlines.numbered     (h : Inlines known c es calls c') : Numbered c calls c' := by
  induction h with
  | nil => exact .nil _
  | node _ _ _ ih ih' => exact ih.append ih'
  | call _ _ _ ih ih' => exact ih.append ((numbered_single _ _).append ih')

theorem InlinesAll.numbered {ss : List Statement}
    (h : InlinesAll known c ss calls) : ∃ c', Numbered c calls c' := by
  induction h with
  | done => exact ⟨_, .nil _⟩
  | step _ _ hcalls _ ih =>
    obtain ⟨c', hnumbered⟩ := ih
    exact ⟨c', hcalls.numbered.append hnumbered⟩

theorem Inlines.mem_known (h : Inlines known c es calls c') :
    ∀ k ∈ calls, ∃ f : String, known[f]? = some k.definition := by
  induction h with
  | nil => simp
  | node _ _ _ ih ih' =>
    rw [List.forall_mem_append]
    exact ⟨ih, ih'⟩
  | call hd _ _ ih ih' =>
    rw [List.forall_mem_append, List.forall_mem_cons]
    exact ⟨ih, ⟨_, hd⟩, ih'⟩

theorem InlinesAll.mem_known {ss : List Statement} (h : InlinesAll known c ss calls) :
    ∀ k ∈ calls, ∃ f : String, known[f]? = some k.definition := by
  induction h with
  | done => simp
  | step _ _ hcalls _ ih =>
    rw [List.forall_mem_append]
    exact ⟨hcalls.mem_known, ih⟩

end Inline

end Formulae
