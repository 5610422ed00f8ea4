import Formulae.Grammar.Definition
import Formulae.Proofs.Render.Plain
import Mathlib.Data.List.TakeWhile

namespace Formulae
open Grammar Outcome Text Token
set_option autoImplicit true

structure Definition.Legible (d : Definition) : Prop where
  name : IsName .equation d.name
  params : ∀ x ∈ d.params, IsName .equation x
  distinct : d.params.Nodup
  body : ∀ s ∈ d.body, Statement.Legible .equation s
  result : ∀ e ∈ d.result, Formulae.Legible (IsName .equation) e

def Definition.eraseSpans (d : Definition) : Definition :=
  { d with body := d.body.map Statement.eraseSpans, result := d.result.map Expr.eraseSpans }

namespace Grammar

def BodyLine.eraseSpans : BodyLine → BodyLine
  | statement s => statement s.eraseSpans
  | result value => result (value.map Expr.eraseSpans)

def BodyLine.Legible : BodyLine → Prop
  | statement s => Statement.Legible .equation s
  | result value => ∀ e ∈ value, Formulae.Legible (IsName .equation) e

def Outline.eraseSpans (o : Outline) : Outline :=
  { o with body := o.body.map BodyLine.eraseSpans }

structure Outline.Legible (o : Outline) : Prop where
  name : IsName .equation o.name
  params : ∀ x ∈ o.params, IsName .equation x
  distinct : o.params.Nodup
  body : ∀ b ∈ o.body, b.Legible

/-- The statements, and behind them the line of the result if there is one. -/
def linesOfBody (ss : List Statement) (last : Option (Option Expr)) : List BodyLine :=
  ss.map .statement ++ (last.map .result).toList

theorem splitBody_eq_some : splitBody bs = some (ss, value) ↔
    ∃ last, last.join = value ∧ bs = linesOfBody ss last := by
  constructor
  · intro h
    fun_induction splitBody bs generalizing ss with
    | case1 =>
      cases h
      exact ⟨none, rfl, rfl⟩
    | case2 e =>
      cases h
      exact ⟨some value, rfl, rfl⟩
    | case3 => cases h
    | case4 s ls ih =>
      obtain ⟨⟨ss', value'⟩, hsplit, h⟩ := Option.map_eq_some_iff.1 h
      cases h
      obtain ⟨last, hlast, rfl⟩ := ih hsplit
      exact ⟨last, hlast, rfl⟩
  · rintro ⟨last, rfl, rfl⟩
    induction ss with
    | nil => cases last <;> rfl
    | cons s ss ih =>
      rw [linesOfBody, List.map_cons, List.cons_append, splitBody]
      exact congrArg _ ih

theorem splitBody_eraseSpans (bs : List BodyLine) : splitBody (bs.map BodyLine.eraseSpans) =
    (splitBody bs).map fun (ss, value) =>
      (ss.map Statement.eraseSpans, value.map Expr.eraseSpans) := by
  fun_induction splitBody bs with
  | case1 => rfl
  | case2 value => rfl
  | case3 value ls hne =>
    cases ls with
    | nil => exact absurd rfl hne
    | cons b ls => rfl
  | case4 s ls ih =>
    rw [List.map_cons, BodyLine.eraseSpans, splitBody, ih]
    cases splitBody ls <;> rfl

/-- Where the lines were written does not matter for which definition they are. -/
theorem Outline.definition_eraseSpans (o : Outline) :
    o.eraseSpans.definition = o.definition.map Definition.eraseSpans := by
  rw [Outline.definition, Outline.definition]
  simp only [Outline.eraseSpans, splitBody_eraseSpans, List.isEmpty_map]
  split
  · rfl
  · cases splitBody o.body <;> rfl

theorem Outline.Legible.definition {o : Outline} (ho : o.Legible) (h : o.definition = .ok d) :
    d.Legible := by
  rw [Outline.definition] at h
  split at h
  · cases h
  · split at h
    · next ss value hsplit =>
      cases h
      obtain ⟨last, rfl, hbody⟩ := splitBody_eq_some.1 hsplit
      have hlines := ho.body
      rw [hbody, linesOfBody, List.forall_mem_append, List.forall_mem_map] at hlines
      refine ⟨ho.name, ho.params, ho.distinct, hlines.1, ?_⟩
      intro e he
      obtain rfl : last = some (some e) := Option.join_eq_some_iff.1 he
      have hvalue : (BodyLine.result (some e)).Legible := hlines.2 _ (by simp)
      exact hvalue e rfl
    · cases h

theorem freshParameter_eq_ok : freshParameter f before x sp = .ok u ↔ x ∉ before := by
  unfold freshParameter
  split
  · next h => simp [h]
  · next h => simp [h]

theorem nodup_of_freshParameter (hfresh : freshParameter f before x sp = .ok u)
    (h : before.Nodup) : (before ++ [x]).Nodup := by
  have hx := freshParameter_eq_ok.1 hfresh
  rw [List.nodup_append]
  exact ⟨h, by simp, by simpa using fun y hy => ne_of_mem_of_not_mem hy hx⟩

theorem legible_of_parameters (hscanned : ∀ l ∈ ts, Scanned .equation l.token)
    (h : parameters stop f before ts = .ok (xs, rest)) :
    (∀ x ∈ xs, IsName .equation x) ∧ (before.Nodup → (before ++ xs).Nodup) := by
  fun_induction parameters stop f before ts generalizing xs rest with
  | case1 | case3 | case4 | case6 | case7 | case10 => cases h
  | case2 =>
    cases h
    simp
  | case5 before l x hl | case9 before l x hl =>
    obtain ⟨u, hfresh, h⟩ := bind_eq_ok.1 h
    cases h
    have hx : IsName .equation x := (hl ▸ hscanned l List.mem_cons_self).isName
    exact ⟨by simpa using hx, nodup_of_freshParameter hfresh⟩
  | case8 before l x hl m ts hm ih =>
    obtain ⟨u, hfresh, h⟩ := bind_eq_ok.1 h
    obtain ⟨⟨xs, rest⟩, hmore, h⟩ := bind_eq_ok.1 h
    cases h
    rw [List.forall_mem_cons, List.forall_mem_cons] at hscanned
    have hx : IsName .equation x := (hl ▸ hscanned.1).isName
    obtain ⟨hnames, hnodup⟩ := ih hscanned.2.2 hmore
    refine ⟨List.forall_mem_cons.2 ⟨hx, hnames⟩, fun hbefore => ?_⟩
    have hall := hnodup (nodup_of_freshParameter hfresh hbefore)
    rwa [List.append_assoc] at hall

theorem header_eq_ok (h : header stop ts = .ok hd) : ∃ l l' l'' us rest,
    ts = l :: l' :: l'' :: us ∧ l'.token = .ident hd.name ∧
      parameters stop hd.name [] us = .ok (hd.params, rest) := by
  unfold header at h
  split at h
  · next start close ts =>
    split at h
    · next start' close' f ts =>
      split at h
      · next start'' close'' ts =>
        obtain ⟨⟨params, rest⟩, hparams, h⟩ := bind_eq_ok.1 h
        dsimp only at h
        split at h
        · next rest =>
          split at h
          · cases h
          · cases h
            exact ⟨_, _, _, _, _, rfl, rfl, hparams⟩
          · cases h
        · cases h
      · cases h
    · cases h
  · cases h

theorem legible_of_header (hscanned : ∀ l ∈ ts, Scanned .equation l.token)
    (h : header stop ts = .ok hd) :
    IsName .equation hd.name ∧ (∀ x ∈ hd.params, IsName .equation x) ∧ hd.params.Nodup := by
  obtain ⟨l, l', l'', us, rest, rfl, hname, hparams⟩ := header_eq_ok h
  rw [List.forall_mem_cons, List.forall_mem_cons, List.forall_mem_cons] at hscanned
  obtain ⟨hnames, hnodup⟩ := legible_of_parameters hscanned.2.2.2 hparams
  exact ⟨(hname ▸ hscanned.2.1).isName, hnames, hnodup .nil⟩

theorem legible_of_bodyLine (h : bodyLine line = .ok b) : b.Legible := by
  obtain ⟨ts, hts, h⟩ := bind_eq_ok.1 h
  have hscanned : ∀ l ∈ ts, Scanned .equation l.token := fun l hl => lexemes_scanned hts hl
  dsimp only at h
  split at h
  · cases h
    exact fun e he => nomatch he
  · obtain ⟨e, he, h⟩ := bind_eq_ok.1 h
    cases h
    rintro _ ⟨⟩
    exact Expr.legible_of_wholeExpression (List.forall_mem_cons.1 hscanned).2 he
  · cases h
  · cases h
  · obtain ⟨s, hs, h⟩ := bind_eq_ok.1 h
    cases h
    exact Statement.legible_of_statement hscanned hs

theorem legible_of_bodyLines (h : bodyLines n ls = .ok bs) : ∀ b ∈ bs, b.Legible := by
  fun_induction bodyLines n ls generalizing bs with
  | case1 =>
    cases h
    simp
  | case2 n line ls _ ih => exact ih h
  | case3 n line ls _ ih =>
    obtain ⟨b, hb, h⟩ := bind_eq_ok.1 h
    obtain ⟨more, hmore, h⟩ := bind_eq_ok.1 h
    cases h
    exact List.forall_mem_cons.2 ⟨legible_of_bodyLine (onLine_eq_ok.1 hb), ih hmore⟩

theorem legible_of_firstLine (h : firstLine line = .ok o) : o.Legible := by
  obtain ⟨ts, hts, h⟩ := bind_eq_ok.1 h
  obtain ⟨hd, hhd, h⟩ := bind_eq_ok.1 h
  obtain ⟨hname, hparams, hdistinct⟩ := legible_of_header (fun l hl => lexemes_scanned hts hl) hhd
  dsimp only at h
  split at h
  · cases h
    exact ⟨hname, hparams, hdistinct, by simp⟩
  · obtain ⟨b, hb, h⟩ := bind_eq_ok.1 h
    cases h
    exact ⟨hname, hparams, hdistinct, by simpa using legible_of_bodyLine hb⟩

theorem legible_of_outlines (h : outlines n ls = .ok os) : ∀ o ∈ os, o.Legible := by
  fun_induction outlines n ls generalizing os with
  | case1 =>
    cases h
    simp
  | case2 n line ls hstart ih =>
    obtain ⟨o, ho, h⟩ := bind_eq_ok.1 h
    obtain ⟨below, hbelow, h⟩ := bind_eq_ok.1 h
    obtain ⟨more, hmore, h⟩ := bind_eq_ok.1 h
    cases h
    have hfirst := legible_of_firstLine (onLine_eq_ok.1 ho)
    have hbody := List.forall_mem_append.2 ⟨hfirst.body, legible_of_bodyLines hbelow⟩
    exact List.forall_mem_cons.2 ⟨{ hfirst with body := hbody }, ih hmore⟩
  | case3 n line ls hstart ih => exact ih h

theorem legible_of_outlinesOfText (h : outlinesOfText source = .ok os) : ∀ o ∈ os, o.Legible :=
  legible_of_outlines h

section Blanks

variable {blanks : List (List Char)}

theorem bodyLines_blanks (h : ∀ line ∈ blanks, line = []) (n : Nat) :
    bodyLines n blanks = .ok [] := by
  induction blanks generalizing n with
  | nil => rfl
  | cons line blanks ih =>
    rw [List.forall_mem_cons] at h
    rw [h.1]
    exact ih h.2 (n + 1)

theorem bodyLines_append_blanks (h : ∀ line ∈ blanks, line = []) (n : Nat)
    (ls : List (List Char)) : bodyLines n (ls ++ blanks) = bodyLines n ls := by
  induction ls generalizing n with
  | nil => exact bodyLines_blanks h n
  | cons line ls ih => rw [List.cons_append, bodyLines, bodyLines, ih]

theorem outlines_blanks (h : ∀ line ∈ blanks, line = []) (n : Nat) :
    outlines n blanks = .ok [] := by
  induction blanks generalizing n with
  | nil => rfl
  | cons line blanks ih =>
    rw [List.forall_mem_cons] at h
    rw [h.1]
    exact ih h.2 (n + 1)

theorem outlines_append_blanks (h : ∀ line ∈ blanks, line = []) (n : Nat)
    (ls : List (List Char)) : outlines n (ls ++ blanks) = outlines n ls := by
  have hcontinue : blanks.takeWhile continuesBody = blanks := by
    apply List.takeWhile_eq_self_iff.2
    intro line hline
    rw [h line hline]
    decide
  induction ls generalizing n with
  | nil => exact outlines_blanks h n
  | cons line ls ih =>
    have hbelow : bodyLines (n + 1) ((ls ++ blanks).takeWhile continuesBody) =
        bodyLines (n + 1) (ls.takeWhile continuesBody) := by
      rw [List.takeWhile_append, hcontinue]
      split
      · next hlen =>
        have hall : ls.takeWhile continuesBody = ls :=
          (List.takeWhile_prefix _).eq_of_length hlen
        rw [hall, bodyLines_append_blanks h]
      · rfl
    rw [List.cons_append, outlines, outlines, hbelow, ih]

end Blanks

end Grammar

theorem Definition.legible_of_parse (h : Definition.parse source = .ok d) : d.Legible := by
  obtain ⟨os, hos, h⟩ := bind_eq_ok.1 h
  have hlegible := legible_of_outlinesOfText hos
  split at h
  · next o => exact (hlegible o List.mem_cons_self).definition h
  · cases h

end Formulae
