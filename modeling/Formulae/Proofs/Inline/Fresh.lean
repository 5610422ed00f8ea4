import Formulae.Inline
import Formulae.Proofs.Dependencies
import Formulae.Proofs.Eval.Bodies
import Formulae.Proofs.Text.Characters
import Std.Data.String.ToNat

namespace Formulae.Inline
set_option autoImplicit true

/-- Does the name begin as new names do? -/
def Reserved (x : String) : Prop := "_inline_".toList <+: x.toList

/-- The new name that a parameter or a local gets in a call of the function. -/
def newName (f : String) (n : Nat) (x : String) : String := lead f ++ toString n ++ "_" ++ x

/-- May the name still be given by a call that is counted from here on? -/
def Fresh (c : Counters) (x : String) : Prop :=
  ∃ f n y, '_' ∉ f.toList ∧ c.getD f 0 ≤ n ∧ newName f n y = x

theorem toList_newName (f : String) (n : Nat) (x : String) : (newName f n x).toList =
    "_inline_".toList ++ (f.toList ++ '_' :: ((toString n).toList ++ '_' :: x.toList)) := by
  simp [newName, lead]

theorem reserved_newName (f : String) (n : Nat) (x : String) : Reserved (newName f n x) := by
  rw [Reserved, toList_newName]
  exact List.prefix_append _ _

theorem Fresh.reserved (h : Fresh c x) : Reserved x := by
  obtain ⟨f, n, y, -, -, rfl⟩ := h
  exact reserved_newName f n y

theorem underscore_notMem_toString (n : Nat) : '_' ∉ (toString n).toList := by
  rw [Nat.toString_eq_ofList_toDigits, String.toList_ofList]
  exact Nat.underscore_not_in_toDigits

theorem number_inj {n m : Nat}
    (h : (toString n).toList ++ '_' :: xs = (toString m).toList ++ '_' :: ys) : n = m := by
  obtain ⟨hdigits, -⟩ :=
    Text.append_cons_inj (underscore_notMem_toString n) (underscore_notMem_toString m) h
  exact Nat.repr_injective (String.toList_inj.1 hdigits)

theorem newName_inj (hf : '_' ∉ f.toList) (hg : '_' ∉ g.toList)
    (h : newName f n x = newName g m y) : f = g ∧ n = m := by
  have hlist := congrArg String.toList h
  rw [toList_newName, toList_newName, List.append_cancel_left_eq] at hlist
  obtain ⟨hname, hrest⟩ := Text.append_cons_inj hf hg hlist
  exact ⟨String.toList_inj.1 hname, number_inj hrest⟩

theorem newName_inj_number (h : newName f n x = newName f m y) : n = m := by
  have hlist := congrArg String.toList h
  rw [toList_newName, toList_newName, List.append_cancel_left_eq, List.append_cancel_left_eq]
    at hlist
  exact number_inj (List.cons.inj hlist).2

theorem newName_inj_right (h : newName f n x = newName f n y) : x = y := by
  have hlist := congrArg String.toList h
  simp only [newName, String.toList_append, List.append_cancel_left_eq] at hlist
  exact String.toList_inj.1 hlist

/-- A call that is counted takes the number that it has been given. -/
theorem Fresh.of_insert (h : Fresh (c.insert f (c.getD f 0 + 1)) x) : Fresh c x := by
  obtain ⟨g, n, y, hg, hn, rfl⟩ := h
  refine ⟨g, n, y, hg, ?_, rfl⟩
  rw [Table.getD_insert] at hn
  split at hn
  · next hfg =>
    subst hfg
    omega
  · exact hn

theorem fresh_newName (hf : '_' ∉ f.toList) (y : String) : Fresh c (newName f (c.getD f 0) y) :=
  ⟨f, _, y, hf, Nat.le_refl _, rfl⟩

theorem not_fresh_newName {c : Counters} (hf : '_' ∉ f.toList) (y : String) :
    ¬Fresh (c.insert f (c.getD f 0 + 1)) (newName f (c.getD f 0) y) := by
  rintro ⟨g, n, z, hg, hn, hname⟩
  obtain ⟨rfl, rfl⟩ := newName_inj hg hf hname
  rw [Table.getD_insert, if_pos rfl] at hn
  omega

theorem getD_newNames (d : Definition) (n : Nat) (x : String) :
    (newNames d n).getD x x = if x ∈ d.ownNames then newName d.name n x else x := by
  rw [newNames, Table.getD_ofList_map]
  simp [Definition.ownNames, newName]

/-- New names are neither taken from the caller nor from each other. -/
theorem renaming_newNames (d : Definition) (n : Nat) {outer : String → Prop}
    (houter : ∀ x, outer x → x ∉ d.ownNames ∧ ¬Reserved x) :
    Eval.Renaming (newNames d n) (· ∈ d.ownNames) outer where
  keeps hx := by rw [getD_newNames, if_neg (houter _ hx).1]
  apart := by
    intro y x hy hx hname
    rw [getD_newNames, getD_newNames, if_pos hy] at hname
    split at hname
    · exact newName_inj_right hname
    · next hown =>
      have hres := (houter x (hx.resolve_left hown)).2
      rw [hname] at hres
      exact absurd (reserved_newName _ _ _) hres

theorem mem_reads_or_target {s : Statement} :
    x ∈ s.reads ∨ s.target = x ↔ x ∈ s.value.identifiers ∨ s.target = x := by
  obtain ⟨target, op, value⟩ := s
  cases op with
  | set => rfl
  | update op =>
    rw [Statement.reads, mem_insert_iff]
    grind

theorem mem_namesOf {ss : List Statement} :
    x ∈ namesOf ss ↔ ∃ s ∈ ss, x ∈ s.value.identifiers ∨ s.target = x := by
  have hfold (names : Names) :
      x ∈ ss.foldl (fun names s => (names ∪ s.reads).insert s.target) names ↔
        x ∈ names ∨ ∃ s ∈ ss, x ∈ s.reads ∨ s.target = x := by
    induction ss generalizing names with
    | nil => simp
    | cons s ss ih =>
      rw [List.foldl_cons, ih, mem_insert_iff, mem_union_iff, exists_mem_cons]
      grind
  rw [namesOf, hfold, or_iff_right Std.ExtTreeSet.not_mem_empty]
  simp only [mem_reads_or_target]

def allNames (d : Definition) : Names := .ofList d.params ∪ namesOf d.body ∪ d.resultReads

/-- Definitions that may be inlined: the functions are told apart by the new names, no variable is
taken for one of these, and what a body reads of its caller no function has a name for itself. -/
structure Inlinable (ds : List Definition) : Prop where
  plain : d ∈ ds → '_' ∉ d.name.toList
  unreserved : d ∈ ds → x ∈ allNames d → ¬Reserved x
  outer : d ∈ ds → x ∈ d.outerReads → d' ∈ ds → x ∉ d'.ownNames

instance (x : String) : Decidable (Reserved x) :=
  inferInstanceAs (Decidable ("_inline_".toList <+: x.toList))

theorem inlinable_iff : Inlinable ds ↔ ∀ d ∈ ds, '_' ∉ d.name.toList ∧
    ((allNames d).all fun x => !decide (Reserved x)) = true ∧
    ∀ d' ∈ ds, (d.outerReads.all fun x => !d'.ownNames.contains x) = true := by
  simp only [all_eq_true_iff, Bool.not_eq_true', decide_eq_false_iff_not]
  constructor
  · intro h d hd
    refine ⟨h.plain hd, fun x hx => h.unreserved hd hx, fun d' hd' x hx => ?_⟩
    rw [← Bool.not_eq_true]
    exact h.outer hd hx hd'
  · intro h
    refine ⟨fun hd => (h _ hd).1, fun hd hx => (h _ hd).2.1 _ hx, fun hd hx hd' hown => ?_⟩
    have hnot := (h _ hd).2.2 _ hd' _ hx
    rw [← Bool.not_eq_true] at hnot
    exact hnot hown

instance (ds : List Definition) : Decidable (Inlinable ds) :=
  decidable_of_iff _ inlinable_iff.symm

/-- A name that bodies may read of their callers. -/
def Outer (ds : List Definition) (x : String) : Prop :=
  ¬Reserved x ∧ ∀ d ∈ ds, x ∉ d.ownNames

theorem Inlinable.outer_of_outerReads (h : Inlinable ds) (hd : d ∈ ds) (hx : x ∈ d.outerReads) :
    Outer ds x := by
  constructor
  · apply h.unreserved hd
    rw [allNames, mem_union_iff, mem_union_iff, mem_namesOf]
    rcases mem_union_iff.1 hx with hx | hx
    · obtain ⟨s, hs, hx⟩ := (Statement.mem_undefinedReads.1 hx).2.read
      exact .inl (.inr ⟨s, hs, mem_reads_or_target.1 (.inl hx)⟩)
    · exact .inr (mem_sdiff_iff.1 hx).1
  · exact fun d' hd' => h.outer hd hx hd'

theorem Outer.renaming (hd : d ∈ ds) (n : Nat) :
    Eval.Renaming (newNames d n) (· ∈ d.ownNames) (Outer ds) :=
  renaming_newNames d n fun _ hx => ⟨hx.2 d hd, hx.1⟩

end Formulae.Inline
