import Formulae.Dependencies
import Formulae.Proofs.Syntax.Names
import Mathlib.Tactic.Tauto

namespace Formulae
set_option autoImplicit true

namespace Statement

variable {ss : List Statement}

theorem mem_readBy : x ∈ readBy ss ↔ ∃ s ∈ ss, x ∈ s.reads := by
  induction ss with
  | nil => simp [readBy]
  | cons s ss ih => rw [readBy, mem_union_iff, ih, exists_mem_cons]

theorem mem_writtenBy : x ∈ writtenBy ss ↔ ∃ s ∈ ss, s.target = x := by
  rw [writtenBy, mem_ofList_iff, List.mem_map]

theorem mem_calledBy : f ∈ calledBy ss ↔ ∃ s ∈ ss, f ∈ s.value.functions := by
  induction ss with
  | nil => simp [calledBy]
  | cons s ss ih => rw [calledBy, mem_union_iff, ih, exists_mem_cons]

/-- A statement reads the name, and none before it assigns to it. -/
def ReadUnassigned (ss : List Statement) (x : String) : Prop :=
  ∃ before s after, ss = before ++ s :: after ∧ x ∈ s.reads ∧ ∀ s' ∈ before, s'.target ≠ x

/-- A statement is the first to assign to the name, and neither it nor one before it reads it. -/
def AssignedUnread (ss : List Statement) (x : String) : Prop :=
  ∃ before s after, ss = before ++ s :: after ∧ s.target = x ∧ (∀ s' ∈ before, s'.target ≠ x) ∧
    ∀ s' ∈ before ++ [s], x ∉ s'.reads

theorem not_readUnassigned_nil : ¬ReadUnassigned [] x := by
  rintro ⟨before, s, after, happend, _⟩
  simp at happend

theorem readUnassigned_cons :
    ReadUnassigned (s :: ss) x ↔ x ∈ s.reads ∨ s.target ≠ x ∧ ReadUnassigned ss x := by
  constructor
  · rintro ⟨_ | ⟨s', before⟩, t, after, happend, hread, hbefore⟩
    · cases happend
      exact .inl hread
    · cases happend
      rw [List.forall_mem_cons] at hbefore
      exact .inr ⟨hbefore.1, before, t, after, rfl, hread, hbefore.2⟩
  · rintro (hread | ⟨htarget, before, t, after, rfl, hread, hbefore⟩)
    · exact ⟨[], s, ss, rfl, hread, by simp⟩
    · exact ⟨s :: before, t, after, rfl, hread, List.forall_mem_cons.2 ⟨htarget, hbefore⟩⟩

theorem not_assignedUnread_nil : ¬AssignedUnread [] x := by
  rintro ⟨before, s, after, happend, _⟩
  simp at happend

theorem assignedUnread_cons :
    AssignedUnread (s :: ss) x ↔ x ∉ s.reads ∧ (s.target = x ∨ AssignedUnread ss x) := by
  constructor
  · rintro ⟨_ | ⟨s', before⟩, t, after, happend, htarget, hbefore, hunread⟩
    · cases happend
      exact ⟨hunread s (by simp), .inl htarget⟩
    · cases happend
      rw [List.cons_append, List.forall_mem_cons] at hunread
      rw [List.forall_mem_cons] at hbefore
      exact ⟨hunread.1, .inr ⟨before, t, after, rfl, htarget, hbefore.2, hunread.2⟩⟩
  · rintro ⟨hread, hassigned⟩
    by_cases htarget : s.target = x
    · exact ⟨[], s, ss, rfl, htarget, by simp, by simpa using hread⟩
    · obtain ⟨before, t, after, rfl, ht, hbefore, hunread⟩ := hassigned.resolve_left htarget
      refine ⟨s :: before, t, after, rfl, ht, List.forall_mem_cons.2 ⟨htarget, hbefore⟩, ?_⟩
      rw [List.cons_append, List.forall_mem_cons]
      exact ⟨hread, hunread⟩

/-- What is defined on the way are the names defined before and the targets so far. -/
theorem mem_undefinedReads :
    x ∈ undefinedReads defined ss ↔ x ∉ defined ∧ ReadUnassigned ss x := by
  induction ss generalizing defined with
  | nil =>
    rw [undefinedReads]
    exact iff_of_false Std.ExtTreeSet.not_mem_empty fun h => not_readUnassigned_nil h.2
  | cons s ss ih =>
    rw [undefinedReads, mem_union_iff, mem_sdiff_iff, ih, mem_insert_iff, readUnassigned_cons]
    grind

theorem assignedUnread_iff :
    AssignedUnread ss x ↔ (∃ s ∈ ss, s.target = x) ∧ ¬ReadUnassigned ss x := by
  induction ss with
  | nil => simp [not_assignedUnread_nil]
  | cons s ss ih =>
    rw [assignedUnread_cons, ih, readUnassigned_cons, exists_mem_cons]
    grind

theorem ReadUnassigned.read (h : ReadUnassigned ss x) : ∃ s ∈ ss, x ∈ s.reads := by
  obtain ⟨before, s, after, rfl, hread, _⟩ := h
  exact ⟨s, by simp, hread⟩

section Permuted

variable {ss' : List Statement}

theorem readBy_perm (h : ss.Perm ss') : readBy ss = readBy ss' := by
  apply Std.ExtTreeSet.ext_mem
  intro x
  simp only [mem_readBy, h.mem_iff]

theorem writtenBy_perm (h : ss.Perm ss') : writtenBy ss = writtenBy ss' := by
  apply Std.ExtTreeSet.ext_mem
  intro x
  simp only [mem_writtenBy, h.mem_iff]

theorem calledBy_perm (h : ss.Perm ss') : calledBy ss = calledBy ss' := by
  apply Std.ExtTreeSet.ext_mem
  intro x
  simp only [mem_calledBy, h.mem_iff]

end Permuted

end Statement

namespace Dependencies

variable {vars functions : Names} {ss : List Statement}

/-- The names are in one part or in the other, and in no more than one. -/
def Split (names known unknown : Names) : Prop :=
  known ∪ unknown = names ∧ ∀ x ∈ known, x ∉ unknown

theorem split_inter_sdiff (names others : Names) : Split names (names ∩ others) (names \ others) := by
  constructor
  · apply Std.ExtTreeSet.ext_mem
    intro x
    rw [mem_union_iff, mem_sdiff_iff, Std.ExtTreeSet.mem_inter_iff]
    tauto
  · intro x hknown hunknown
    exact (mem_sdiff_iff.1 hunknown).2 (Std.ExtTreeSet.mem_inter_iff.1 hknown).2

/-- The sets are what they are said to be, for the block and for what is known outside. -/
structure Describes (vars functions : Names) (ss : List Statement) (d : Dependencies) : Prop where
  read : x ∈ d.read ↔ ∃ s ∈ ss, x ∈ s.reads
  written : x ∈ d.written ↔ ∃ s ∈ ss, s.target = x
  called : f ∈ d.called ↔ ∃ s ∈ ss, f ∈ s.value.functions
  all : d.all = d.read ∪ d.written ∪ d.called
  knownRead : x ∈ d.knownRead ↔ x ∈ d.read ∧ x ∈ vars
  knownWritten : x ∈ d.knownWritten ↔ x ∈ d.written ∧ x ∈ vars
  knownCalled : f ∈ d.knownCalled ↔ f ∈ d.called ∧ f ∈ functions
  knownAll : x ∈ d.knownAll ↔ x ∈ d.all ∧ (x ∈ vars ∨ x ∈ functions)
  readSplit : Split d.read d.knownRead d.unknownRead
  writtenSplit : Split d.written d.knownWritten d.unknownWritten
  calledSplit : Split d.called d.knownCalled d.unknownCalled
  undefinedRead : x ∈ d.undefinedRead ↔ x ∉ vars ∧ Statement.ReadUnassigned ss x
  newlyDefined : x ∈ d.newlyDefined ↔ x ∉ vars ∧ Statement.AssignedUnread ss x
  undefinedRead_unknown : x ∈ d.undefinedRead → x ∈ d.unknownRead
  newlyDefined_unknown : x ∈ d.newlyDefined → x ∈ d.unknownWritten

open Statement in
theorem describes_ofStatements : Describes vars functions ss (ofStatements vars functions ss) where
  read := mem_readBy
  written := mem_writtenBy
  called := mem_calledBy
  all := rfl
  knownRead := Std.ExtTreeSet.mem_inter_iff
  knownWritten := Std.ExtTreeSet.mem_inter_iff
  knownCalled := Std.ExtTreeSet.mem_inter_iff
  knownAll := Std.ExtTreeSet.mem_inter_iff.trans (and_congr_right fun _ => mem_union_iff)
  readSplit := split_inter_sdiff _ _
  writtenSplit := split_inter_sdiff _ _
  calledSplit := split_inter_sdiff _ _
  undefinedRead := mem_undefinedReads
  newlyDefined := by
    intro x
    rw [assignedUnread_iff]
    simp only [ofStatements, mem_sdiff_iff, mem_writtenBy, mem_undefinedReads]
    tauto
  undefinedRead_unknown := by
    intro x hx
    obtain ⟨hvars, hread⟩ := mem_undefinedReads.1 hx
    exact mem_sdiff_iff.2 ⟨mem_readBy.2 hread.read, hvars⟩
  newlyDefined_unknown := fun hx => (mem_sdiff_iff.1 hx).1

end Dependencies

/-- The sets of names of a block are what they are said to be; and the order of the statements
matters only for the names that are read undefined and those that are newly defined. -/
theorem dependencies_exact (vars functions : Names) (ss : List Statement) :
    Dependencies.Describes vars functions ss (.ofStatements vars functions ss) ∧
    ∀ ss', ss.Perm ss' → Dependencies.ofStatements vars functions ss' =
      { Dependencies.ofStatements vars functions ss with
        undefinedRead := (Dependencies.ofStatements vars functions ss').undefinedRead
        newlyDefined := (Dependencies.ofStatements vars functions ss').newlyDefined } := by
  refine ⟨Dependencies.describes_ofStatements, fun ss' hperm => ?_⟩
  simp only [Dependencies.ofStatements, Statement.readBy_perm hperm,
    Statement.writtenBy_perm hperm, Statement.calledBy_perm hperm]

/-- After `y = x` the update `x += y` reads nothing undefined but `x`; the other way round `y` is
read before it is assigned to. -/
theorem dependencies_exact_swapped :
    let s : Statement := ⟨"y", .set, .var "x" .zero⟩
    let t : Statement := ⟨"x", .update .add, .var "y" .zero⟩
    [s, t].Perm [t, s] ∧
    Dependencies.ofStatements ∅ ∅ [t, s] = { Dependencies.ofStatements ∅ ∅ [s, t] with
      undefinedRead := (Dependencies.ofStatements ∅ ∅ [t, s]).undefinedRead
      newlyDefined := (Dependencies.ofStatements ∅ ∅ [t, s]).newlyDefined } ∧
    "y" ∈ (Dependencies.ofStatements ∅ ∅ [s, t]).newlyDefined ∧
    "y" ∈ (Dependencies.ofStatements ∅ ∅ [t, s]).undefinedRead := by
  intro s t
  have hperm : [s, t].Perm [t, s] := .swap t s []
  refine ⟨hperm, (dependencies_exact ∅ ∅ [s, t]).2 _ hperm, ?_, ?_⟩
  · apply (dependencies_exact ∅ ∅ [s, t]).1.newlyDefined.2
    refine ⟨Std.ExtTreeSet.not_mem_empty, [], s, [t], rfl, rfl, by simp, ?_⟩
    simp [s, Statement.reads, Expr.identifiers]
  · apply (dependencies_exact ∅ ∅ [t, s]).1.undefinedRead.2
    refine ⟨Std.ExtTreeSet.not_mem_empty, [], t, [s], rfl, ?_, by simp⟩
    simp [t, Statement.reads, Expr.identifiers]

end Formulae
