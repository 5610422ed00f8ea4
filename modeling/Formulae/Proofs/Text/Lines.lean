import Formulae.Proofs.Text.Characters
import Formulae.Text.Line

namespace Formulae.Text
set_option autoImplicit true

/-- No line ends within the text. -/
def OneLine (cs : List Char) : Prop :=
  ∀ c ∈ cs, c ≠ '\n' ∧ c ≠ '\r'

instance (cs : List Char) : Decidable (OneLine cs) :=
  inferInstanceAs (Decidable (∀ c ∈ cs, c ≠ '\n' ∧ c ≠ '\r'))

theorem OneLine.append (h : OneLine cs) (h' : OneLine ds) : OneLine (cs ++ ds) :=
  List.forall_mem_append.2 ⟨h, h'⟩

/-- The line is a single one, and begins with a character that a name may begin with. -/
def BeginsName (line : List Char) : Prop :=
  (∃ c cs, line = c :: cs ∧ isIdentStart c = true) ∧ OneLine line

theorem trim_cons (h : isWhiteSpace c = false) (cs : List Char) :
    ∃ ds, trim (c :: cs) = c :: ds := by
  rw [trim, List.dropWhile_cons_of_neg (by simp [h]), List.reverse_cons, List.dropWhile_append]
  split
  · exact ⟨[], by simp [h]⟩
  · exact ⟨(cs.reverse.dropWhile isWhiteSpace).reverse, by simp⟩

theorem BeginsName.not_blank (h : BeginsName line) : isBlank line = false := by
  obtain ⟨⟨c, cs, rfl, hc⟩, -⟩ := h
  obtain ⟨ds, hds⟩ := trim_cons (not_whiteSpace_of_start hc) cs
  have hhash : c ≠ '#' := by
    rintro rfl
    exact absurd hc (by decide)
  simp [isBlank, hds, hhash]

theorem BeginsName.indentation (h : BeginsName line) : indentation line = 0 := by
  obtain ⟨⟨c, cs, rfl, hc⟩, -⟩ := h
  have hindents : indents c = false := by
    have hall : ∀ c ∈ [' ', '\t'], isIdentStart c = false := by decide
    rw [indents, Bool.or_eq_false_iff, beq_eq_false_iff_ne, beq_eq_false_iff_ne]
    constructor <;> rintro rfl <;> rw [hall _ (by decide)] at hc <;> cases hc
  simp [Text.indentation, hindents]

theorem lines_append (h : OneLine line) (cs : List Char) :
    lines (line ++ '\n' :: cs) = line :: lines cs := by
  induction line with
  | nil => simp [lines]
  | cons c line ih =>
    rw [OneLine, List.forall_mem_cons] at h
    simp [lines, h.1, ih h.2]

theorem lines_single (h : OneLine line) (hne : line ≠ []) : lines line = [line] := by
  induction line with
  | nil => exact absurd rfl hne
  | cons c line ih =>
    rw [OneLine, List.forall_mem_cons] at h
    cases line with
    | nil => simp [lines, h.1]
    | cons d line =>
      have hrest := ih h.2 (by simp)
      rw [lines.eq_def]
      simp [h.1, hrest]

theorem unlines_cons_cons (line l : List Char) (ls : List (List Char)) :
    unlines (line :: l :: ls) = line ++ '\n' :: unlines (l :: ls) := by
  simp [unlines, List.intercalate_cons_cons]

theorem lines_unlines (h : ∀ line ∈ ls, BeginsName line) : lines (unlines ls) = ls := by
  induction ls with
  | nil => rfl
  | cons line ls ih =>
    rw [List.forall_mem_cons] at h
    cases ls with
    | nil =>
      obtain ⟨⟨⟨c, cs, hcs, -⟩, hline⟩, -⟩ := h
      simpa [unlines] using lines_single hline (by simp [hcs])
    | cons l ls =>
      rw [unlines_cons_cons, lines_append h.1.2, ih h.2]

/-- Nothing is shared if the first line is not indented. -/
theorem sharedIndentation_eq_zero (h : ∀ line ∈ ls.head?, BeginsName line) :
    sharedIndentation ls = 0 := by
  cases ls with
  | nil => rfl
  | cons line ls =>
    have hline : BeginsName line := h line rfl
    have hmem : 0 ∈ ((line :: ls).filter (!isBlank ·)).map indentation := by
      rw [List.filter_cons_of_pos (by simp [hline.not_blank]), List.map_cons, hline.indentation]
      exact List.mem_cons_self
    unfold sharedIndentation
    cases hm : (((line :: ls).filter (!isBlank ·)).map indentation).min? with
    | none => rfl
    | some n => exact Nat.le_zero.1 ((List.min?_eq_some_iff.1 hm).2 0 hmem)

/-- Lines that begin with names have no indentation to take off. -/
theorem deindent_unlines (h : ∀ line ∈ ls, BeginsName line) :
    deindent (unlines ls) = unlines ls := by
  have hshared : sharedIndentation ls = 0 :=
    sharedIndentation_eq_zero fun line hline => h line (List.mem_of_mem_head? hline)
  simp only [deindent, lines_unlines h, hshared, List.drop_zero]
  refine congrArg unlines ((List.map_congr_left fun line hline => ?_).trans (List.map_id ls))
  simp [(h line hline).not_blank]

theorem unlines_append (hls : ls ≠ []) (hms : ms ≠ []) :
    unlines (ls ++ ms) = unlines ls ++ '\n' :: unlines ms := by
  induction ls with
  | nil => exact absurd rfl hls
  | cons line ls ih =>
    cases ls with
    | nil =>
      obtain ⟨l, ms, rfl⟩ := List.exists_cons_of_ne_nil hms
      rw [List.singleton_append, unlines_cons_cons]
      simp [unlines]
    | cons l ls =>
      rw [List.cons_append, List.cons_append, unlines_cons_cons, unlines_cons_cons,
        List.append_assoc, List.cons_append, ← List.cons_append, ih (by simp)]

theorem unlines_concat (ls : List (List Char)) (line : List Char) :
    unlines (ls ++ [line]) = (ls.flatMap fun l => l ++ ['\n']) ++ line := by
  induction ls with
  | nil => simp [unlines]
  | cons l ls ih =>
    have hne : ls ++ [line] ≠ [] := by simp
    have hcons := unlines_append (List.cons_ne_nil l []) hne
    rw [List.singleton_append, ih] at hcons
    rw [List.cons_append, hcons]
    simp [unlines]

/-- Texts of several lines with a newline between each two are the lines of all of them. -/
theorem unlines_flatMap {xs : List α} {f : α → List (List Char)} (hf : ∀ x ∈ xs, f x ≠ []) :
    unlines (xs.flatMap f) = ['\n'].intercalate (xs.map fun x => unlines (f x)) := by
  induction xs with
  | nil => rfl
  | cons x xs ih =>
    rw [List.forall_mem_cons] at hf
    cases xs with
    | nil => simp
    | cons y xs =>
      have hne : (y :: xs).flatMap f ≠ [] := by
        rw [List.flatMap_cons]
        exact List.append_ne_nil_of_left_ne_nil (hf.2 y (by simp)) _
      rw [List.flatMap_cons, unlines_append hf.1 hne, ih hf.2, List.map_cons, List.map_cons,
        List.map_cons, List.intercalate_cons_cons, List.append_assoc, List.singleton_append]

/-- Of lines that are put together, all but empty ones at the end are found again. -/
theorem lines_unlines_append (h : ∀ line ∈ ls, OneLine line) :
    ∃ blanks, (∀ line ∈ blanks, line = []) ∧ ls = lines (unlines ls) ++ blanks := by
  induction ls with
  | nil => exact ⟨[], by simp, rfl⟩
  | cons line ls ih =>
    rw [List.forall_mem_cons] at h
    cases ls with
    | nil =>
      have hline : unlines [line] = line := by simp [unlines]
      rw [hline]
      by_cases hempty : line = []
      · exact ⟨[[]], by simp, by simp [hempty, lines]⟩
      · exact ⟨[], by simp, by simp [lines_single h.1 hempty]⟩
    | cons l ls =>
      obtain ⟨blanks, hblanks, hls⟩ := ih h.2
      refine ⟨blanks, hblanks, ?_⟩
      rw [unlines_cons_cons, lines_append h.1, List.cons_append, ← hls]

/-- Nothing is taken off the lines if the first one is not indented. -/
theorem lines_deindent_unlines (hline : ∀ line ∈ ls, OneLine line)
    (hblank : ∀ line ∈ ls, isBlank line = true → line = [])
    (hfirst : ∀ line ∈ ls.head?, BeginsName line) :
    ∃ blanks, (∀ line ∈ blanks, line = []) ∧ ls = lines (deindent (unlines ls)) ++ blanks := by
  obtain ⟨blanks, hblanks, hls⟩ := lines_unlines_append hline
  have hsub : ∀ line ∈ lines (unlines ls), line ∈ ls := by
    intro line hl
    rw [hls]
    exact List.mem_append_left _ hl
  have hshared : sharedIndentation (lines (unlines ls)) = 0 := by
    apply sharedIndentation_eq_zero
    intro line hl
    apply hfirst
    rw [hls, List.head?_append, Option.mem_def.1 hl]
    rfl
  have hdeindent : deindent (unlines ls) = unlines (lines (unlines ls)) := by
    simp only [deindent, hshared, List.drop_zero]
    refine congrArg unlines ((List.map_congr_left fun line hl => ?_).trans (List.map_id _))
    split
    · next hb => exact (hblank line (hsub line hl) hb).symm
    · rfl
  obtain ⟨more, hmore, hlines⟩ := lines_unlines_append fun line hl => hline line (hsub line hl)
  refine ⟨more ++ blanks, ?_, ?_⟩
  · intro line hl
    exact (List.mem_append.1 hl).elim (hmore line) (hblanks line)
  · rw [hdeindent, ← List.append_assoc, ← hlines]
    exact hls

end Formulae.Text
