import Formulae.Grammar.Definition
import Formulae.Proofs.Text.Lines
import Formulae.Proofs.Token.Standing

namespace Formulae.Text
set_option autoImplicit true

/-- The text with `w` before each line that begins in it, the first one included if it is `fresh`. -/
def prefixFrom (w : List Char) : (fresh : Bool) → List Char → List Char
  | _, [] => []
  | fresh, c :: cs => (if fresh then w else []) ++ c :: prefixFrom w (c == '\n') cs

/-- The text with `w` before every line. -/
def prefixLines (w cs : List Char) : List Char :=
  prefixFrom w true cs

/-- The lines with `w` before all of them but the first. -/
def prefixBelow (w : List Char) : List (List Char) → List (List Char)
  | [] => []
  | l :: ls => l :: ls.map (w ++ ·)

theorem lines_ne_nil (h : cs ≠ []) : lines cs ≠ [] := by
  fun_cases lines cs with
  | case1 => exact absurd rfl h
  | case2 => exact List.cons_ne_nil _ _
  | case3 => exact List.cons_ne_nil _ _
  | case4 => exact List.cons_ne_nil _ _
  | case5 => exact List.cons_ne_nil _ _

/-- A character that does not end a line belongs to the first line of the text behind it. -/
theorem lines_cons (hreturn : c = '\r' → ∀ ds, cs ≠ '\n' :: ds) (hnewline : c ≠ '\n')
    (h : lines cs = l :: ls) : lines (c :: cs) = (c :: l) :: ls := by
  rw [lines.eq_def]
  split
  · next hcs => cases hcs
  · next ds hcs =>
    obtain ⟨hc, hcs⟩ := List.cons.inj hcs
    exact absurd hcs (hreturn hc ds)
  · next ds hcs =>
    obtain ⟨hc, -⟩ := List.cons.inj hcs
    exact absurd hc hnewline
  · next hcs =>
    obtain ⟨rfl, rfl⟩ := List.cons.inj hcs
    rw [h]

/-- What is put before a text and has no end of a line in it belongs to the first line. -/
theorem lines_append_of_cons (hw : OneLine w) (h : lines cs = l :: ls) :
    lines (w ++ cs) = (w ++ l) :: ls := by
  induction w with
  | nil => exact h
  | cons c w ih =>
    rw [OneLine, List.forall_mem_cons] at hw
    exact lines_cons (fun hc => absurd hc hw.1.2) hw.1.1 (ih hw.2)

theorem exists_of_prefixFrom (h : prefixFrom w false cs = c :: ds) : ∃ es, cs = c :: es := by
  cases cs with
  | nil => cases h
  | cons d cs =>
    obtain ⟨rfl, -⟩ := List.cons.inj h
    exact ⟨cs, rfl⟩

theorem lines_prefixFrom_fresh (hw : OneLine w)
    (h : lines (prefixFrom w false cs) = prefixBelow w (lines cs)) :
    lines (prefixFrom w true cs) = (lines cs).map (w ++ ·) := by
  cases cs with
  | nil => rfl
  | cons c cs =>
    obtain ⟨l, ls, hls⟩ := List.exists_cons_of_ne_nil (lines_ne_nil (List.cons_ne_nil c cs))
    rw [hls] at h ⊢
    exact lines_append_of_cons hw h

theorem lines_prefixFrom_below (hw : OneLine w) (cs : List Char) :
    lines (prefixFrom w false cs) = prefixBelow w (lines cs) := by
  -- Behind the end of a line the rest is `fresh`, which the other form of the statement is about.
  fun_induction lines cs with
  | case1 => rfl
  | case2 cs ih =>
    change [] :: lines (prefixFrom w true cs) = _
    rw [lines_prefixFrom_fresh hw ih]
    rfl
  | case3 cs ih =>
    change [] :: lines (prefixFrom w true cs) = _
    rw [lines_prefixFrom_fresh hw ih]
    rfl
  | case4 c cs hreturn hnewline hnil ih =>
    obtain rfl : cs = [] := by
      by_contra hcs
      exact lines_ne_nil hcs hnil
    change lines [c] = [[c]]
    simp [lines]
  | case5 c cs hreturn hnewline l ls hls ih =>
    have hc : (c == '\n') = false := beq_eq_false_iff_ne.2 hnewline
    rw [hls] at ih
    change lines (c :: prefixFrom w (c == '\n') cs) = (c :: l) :: ls.map (w ++ ·)
    rw [hc]
    apply lines_cons _ hnewline ih
    -- Nothing comes between a return and a newline, so a return ends a line only where it did.
    rintro hc ds hds
    obtain ⟨es, rfl⟩ := exists_of_prefixFrom hds
    exact hreturn es hc rfl

theorem lines_prefixLines (hw : OneLine w) (cs : List Char) :
    lines (prefixLines w cs) = (lines cs).map (w ++ ·) :=
  lines_prefixFrom_fresh hw (lines_prefixFrom_below hw cs)

/-- All characters of the text are blanks and tabs. -/
def Indents (w : List Char) : Prop :=
  ∀ c ∈ w, indents c = true

theorem cases_of_indents (h : indents c = true) : c = ' ' ∨ c = '\t' := by
  simpa [indents] using h

theorem Indents.oneLine (h : Indents w) : OneLine w := by
  intro c hc
  rcases cases_of_indents (h c hc) with rfl | rfl <;> decide

theorem Indents.byteCount (h : Indents w) : byteCount w = w.length := by
  induction w with
  | nil => rfl
  | cons c w ih =>
    rw [Indents, List.forall_mem_cons] at h
    have hc : c.utf8Size = 1 := by
      rcases cases_of_indents h.1 with rfl | rfl <;> decide
    rw [byteCount_cons, hc, ih h.2, List.length_cons, Nat.add_comm]

theorem Indents.isBlank (h : Indents w) (line : List Char) :
    isBlank (w ++ line) = isBlank line := by
  have hwhite : ∀ c ∈ w, isWhiteSpace c = true := by
    intro c hc
    rcases cases_of_indents (h c hc) with rfl | rfl <;> decide
  rw [Text.isBlank, trim, List.dropWhile_append_of_pos hwhite]
  rfl

theorem Indents.indentation (h : Indents w) (line : List Char) :
    indentation (w ++ line) = w.length + indentation line := by
  rw [Text.indentation, List.takeWhile_append_of_pos h, List.length_append]
  rfl

/-- If a line is not blank, then the shared indentation is the least one of such lines. -/
theorem sharedIndentation_eq_iff (hline : line ∈ ls) (hblank : isBlank line = false) :
    sharedIndentation ls = n ↔ (∃ l ∈ ls, isBlank l = false ∧ indentation l = n) ∧
      ∀ l ∈ ls, isBlank l = false → n ≤ indentation l := by
  have hmem : indentation line ∈ (ls.filter (!isBlank ·)).map indentation :=
    List.mem_map_of_mem (List.mem_filter.2 ⟨hline, by simp [hblank]⟩)
  obtain ⟨m, hm⟩ := Option.ne_none_iff_exists'.1
    (mt List.min?_eq_none_iff.1 (List.ne_nil_of_mem hmem))
  have hn : sharedIndentation ls = n ↔
      ((ls.filter (!isBlank ·)).map indentation).min? = some n := by
    rw [sharedIndentation, hm, Option.getD_some, Option.some.injEq]
  rw [hn, List.min?_eq_some_iff, List.forall_mem_map]
  simp only [List.mem_map, List.mem_filter, Bool.not_eq_true', and_assoc, and_imp]

theorem sharedIndentation_prefixed (h : Indents w) (hline : line ∈ ls)
    (hblank : isBlank line = false) :
    sharedIndentation (ls.map (w ++ ·)) = w.length + sharedIndentation ls := by
  obtain ⟨⟨l, hl, hlblank, hlshared⟩, hleast⟩ := (sharedIndentation_eq_iff hline hblank).1 rfl
  have hblank' : isBlank (w ++ line) = false := by rw [h.isBlank, hblank]
  apply (sharedIndentation_eq_iff (List.mem_map_of_mem hline) hblank').2
  constructor
  · refine ⟨w ++ l, List.mem_map_of_mem hl, ?_, ?_⟩
    · rw [h.isBlank, hlblank]
    · rw [h.indentation, hlshared]
  · rw [List.forall_mem_map]
    intro l hl hlblank
    rw [h.isBlank] at hlblank
    rw [h.indentation]
    exact Nat.add_le_add_left (hleast l hl hlblank) _

/-- Lines that differ from those of another text by an indentation are the same without it. -/
theorem deindent_congr (h : Indents w) (hlines : lines ds = (lines cs).map (w ++ ·)) :
    deindent ds = deindent cs := by
  unfold deindent
  dsimp only
  rw [hlines, List.map_map]
  refine congrArg unlines (List.map_congr_left fun l hl => ?_)
  simp only [Function.comp_apply, h.isBlank]
  split
  · rfl
  · next hblank =>
    rw [Bool.not_eq_true] at hblank
    rw [sharedIndentation_prefixed h hl hblank, List.drop_length_add_append]

theorem deindent_prefixLines (h : Indents w) (cs : List Char) :
    deindent (prefixLines w cs) = deindent cs :=
  deindent_congr h (lines_prefixLines h.oneLine cs)

/-- The shared indentation ends between two characters of every line that is not blank. -/
theorem shared_isPrefix (hline : line ∈ ls) (hblank : isBlank line = false) :
    ∃ w, line = w ++ line.drop (sharedIndentation ls) ∧
      byteCount w = sharedIndentation ls := by
  obtain ⟨-, hleast⟩ := (sharedIndentation_eq_iff hline hblank).1 rfl
  have hle := hleast line hline hblank
  have hbegins : line.take (sharedIndentation ls) <+: line.takeWhile indents := by
    apply List.prefix_of_prefix_length_le (List.take_prefix _ _) (List.takeWhile_prefix _)
    exact (List.length_take_le _ _).trans hle
  have hindents : Indents (line.take (sharedIndentation ls)) := by
    intro c hc
    exact List.all_eq_true.1 List.all_takeWhile c (hbegins.subset hc)
  refine ⟨line.take (sharedIndentation ls), (List.take_append_drop _ _).symm, ?_⟩
  rw [hindents.byteCount]
  apply List.length_take_of_le
  exact hle.trans (List.takeWhile_prefix indents).length_le

theorem deindent_eq_dropBytes (cs : List Char) :
    deindent cs = unlines ((lines cs).map fun l =>
      if isBlank l then [] else dropBytes (sharedIndentation (lines cs)) l) := by
  refine congrArg unlines (List.map_congr_left fun l hl => ?_)
  split
  · rfl
  · next hblank =>
    rw [Bool.not_eq_true] at hblank
    obtain ⟨w, hline, hbytes⟩ := shared_isPrefix hl hblank
    have hdrop := dropBytes_append w (l.drop (sharedIndentation (lines cs)))
    rw [hbytes, ← hline] at hdrop
    exact hdrop.symm

end Formulae.Text

namespace Formulae
open Text
set_option autoImplicit true

/-- Blanks and tabs before every line of a text change nothing of what is read, neither in a block of
statements nor in definitions, and no fault. From a line that is not blank the bytes that all of them
share are taken off; it has them, and they end between two characters. -/
theorem shared_indentation_immaterial (hw : Indents w) (code : String) :
    Statement.parseBlock (.ofList (prefixLines w code.toList)) = Statement.parseBlock code ∧
      Definition.parseAll (.ofList (prefixLines w code.toList)) = Definition.parseAll code ∧
      Definition.parse (.ofList (prefixLines w code.toList)) = Definition.parse code ∧
      let ls := lines code.toList
      let shared := sharedIndentation ls
      deindent code.toList =
          unlines (ls.map fun l => if isBlank l then [] else dropBytes shared l) ∧
        ∀ line ∈ ls, isBlank line = false → ∃ ys, StandsAt line 0 shared ys := by
  have hdeindent := deindent_prefixLines hw code.toList
  refine ⟨?_, ?_, ?_, deindent_eq_dropBytes code.toList, ?_⟩
  · simp only [Statement.parseBlock, String.toList_ofList, hdeindent]
  · simp only [Definition.parseAll, Grammar.outlinesOfText, String.toList_ofList, hdeindent]
  · simp only [Definition.parse, Grammar.outlinesOfText, String.toList_ofList, hdeindent]
  · intro line hline hblank
    obtain ⟨ys, hys, hbytes⟩ := shared_isPrefix hline hblank
    exact ⟨ys, [], _, hys, rfl, by simp [hbytes]⟩

/-- A tab and a blank before lines of which one ends with a return, one is a comment that is indented
less than the others, and one goes on with white space of several bytes. -/
theorem shared_indentation_immaterial_mixed :
    Indents ['\t', ' '] ∧
      prefixLines ['\t', ' '] "  def f(x):\r\n# top\n    \u00a0return x\n".toList =
        "\t   def f(x):\r\n\t # top\n\t     \u00a0return x\n".toList ∧
      (Definition.parse "\t   def f(x):\r\n\t # top\n\t     \u00a0return x\n").map (·.params) =
        .ok ["x"] ∧
      Statement.parseBlock "\t   def f(x):\r\n\t # top\n\t     \u00a0return x\n" =
        Statement.parseBlock "  def f(x):\r\n# top\n    \u00a0return x\n" := by
  have hw : Indents ['\t', ' '] := by
    simp [Indents, indents]
  have hprefixed : prefixLines ['\t', ' '] "  def f(x):\r\n# top\n    \u00a0return x\n".toList =
      "\t   def f(x):\r\n\t # top\n\t     \u00a0return x\n".toList := by
    decide +kernel
  obtain ⟨hblock, -, hdefinition, -⟩ :=
    shared_indentation_immaterial hw "  def f(x):\r\n# top\n    \u00a0return x\n"
  rw [hprefixed, String.ofList_toList] at hblock hdefinition
  refine ⟨hw, hprefixed, ?_, hblock⟩
  rw [hdefinition]
  decide +kernel

end Formulae
