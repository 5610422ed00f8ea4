import Formulae.Proofs.Inline.Trace

namespace Formulae
set_option autoImplicit true

namespace Inline
open Outcome

/-- The name of the second function begins with that of the first and the number of its call, and
the rest of it is in front of an own name of the first. -/
def InlinedCall.Overlaps (a b : InlinedCall) : Prop :=
  ∃ w, b.name = a.name ++ "_" ++ toString a.number ++ w ∧
    ∃ x ∈ a.definition.ownNames, ∃ y ∈ b.definition.ownNames,
      "_" ++ x = w ++ "_" ++ toString b.number ++ "_" ++ y

theorem InlinedCall.Overlaps.isPrefix {a b : InlinedCall} (h : a.Overlaps b) :
    (a.name ++ "_" ++ toString a.number).toList <+: b.name.toList := by
  obtain ⟨w, hname, -⟩ := h
  rw [hname]
  simp

theorem InlinedCall.Gives.reserved {k : InlinedCall} (h : k.Gives x) : Reserved x := by
  obtain ⟨y, -, rfl⟩ := h
  exact reserved_newName _ _ y

/-- The new names for different calls are different, and none of them is in use in the block or
read by one of the functions as a name that is not its own. -/
structure Hygienic (ss : List Statement) (calls : List InlinedCall) : Prop where
  apart : calls.Pairwise fun a b => ∀ x, a.Gives x → ¬b.Gives x
  unused : ∀ k ∈ calls, ∀ x, k.Gives x → x ∉ namesOf ss
  unread : ∀ k ∈ calls, ∀ x, k.Gives x → ∀ k' ∈ calls, x ∉ k'.definition.globals

theorem callNumber?_newName (h : n ≤ greatestNumber) (f x : String) :
    callNumber? f (newName f n x) = some n := by
  have hdigits : Decimal.readNat? (toString n).toList = some n := by
    rw [Nat.toString_eq_ofList_toDigits, String.toList_ofList]
    have hall : (Nat.toDigits 10 n).all Char.isDigit = true :=
      List.all_eq_true.2 fun c hc => Nat.isDigit_of_mem_toDigits (by decide) (by decide) hc
    rw [Decimal.readNat?, if_pos ⟨Nat.toDigits_ne_nil, hall⟩]
    exact congrArg some (Nat.ofDigitChars_toDigits (by decide) (by decide))
  have hlist : (newName f n x).toList =
      (lead f).toList ++ ((toString n).toList ++ '_' :: x.toList) := by
    simp [newName]
  have hstop : ((toString n).toList ++ '_' :: x.toList).takeWhile (· != '_') =
      (toString n).toList := by
    rw [List.takeWhile_append_of_pos]
    · simp
    · intro c hc
      simp only [bne_iff_ne]
      rintro rfl
      exact underscore_notMem_toString n hc
  rw [callNumber?, hlist]
  simp only [List.isPrefixOf_iff_prefix, List.prefix_append, if_true, List.drop_left, hstop]
  rw [if_pos (by simp), hdigits]
  simpa using h

theorem lt_firstNumber {names : Names} (hx : x ∈ names) (h : callNumber? f x = some n) :
    n < firstNumber names f := by
  have hfold (xs : List String) (m : Nat) :
      m ≤ xs.foldl (fun n x => ((callNumber? f x).map (max n <| · + 1)).getD n) m ∧
      (x ∈ xs → n < xs.foldl (fun n x => ((callNumber? f x).map (max n <| · + 1)).getD n) m) := by
    induction xs generalizing m with
    | nil => simp
    | cons y ys ih =>
      rw [List.foldl_cons]
      have hstep : m ≤ ((callNumber? f y).map (max m <| · + 1)).getD m := by
        cases callNumber? f y with
        | none => exact Nat.le_refl m
        | some k => exact Nat.le_max_left _ _
      refine ⟨Nat.le_trans hstep (ih _).1, ?_⟩
      intro hmem
      rcases List.mem_cons.1 hmem with rfl | hmem
      · have hhere : n < ((callNumber? f x).map (max m <| · + 1)).getD m := by
          rw [h]
          exact Nat.lt_of_lt_of_le (Nat.lt_succ_self n) (Nat.le_max_right _ _)
        exact Nat.lt_of_lt_of_le hhere (ih _).1
      · exact (ih _).2 hmem
  exact (hfold names.toList 0).2 (Std.ExtTreeSet.mem_toList.2 hx)

/-- No name that a call gives is in use in the block. -/
theorem InlinesAll.unused {ds : List Definition} {ss : List Statement}
    (h : InlinesAll (Table.ofDefinitions ds) (countersFor (Table.ofDefinitions ds) ss) ss calls)
    (hk : k ∈ calls) (hx : k.Gives x) : x ∉ namesOf ss := by
  obtain ⟨y, -, rfl⟩ := hx
  obtain ⟨f, hf⟩ := h.mem_known k hk
  obtain rfl : k.name = f := (Table.getElem?_ofDefinitions hf).2
  obtain ⟨c', hnumbered⟩ := h.numbered
  have hstart : firstNumber (namesOf ss) k.name ≤ k.number := by
    have hle := (hnumbered.range k hk).1
    rw [countersFor, Std.ExtTreeMap.getD_eq_getD_getElem?, Std.ExtTreeMap.getElem?_map, hf] at hle
    exact hle
  intro hmem
  exact Nat.not_lt.2 hstart (lt_firstNumber hmem (callNumber?_newName (Nat.le_of_lt (h.in_range k hk)) _ _))

theorem append_cons_overlaps {ns xs ms ys zs : List Char} (hns : '_' ∉ ns) (hzs : zs ≠ [])
    (h : '_' :: (ns ++ '_' :: xs) = zs ++ '_' :: (ms ++ '_' :: ys)) :
    ∃ ws, zs = '_' :: (ns ++ ws) ∧ '_' :: xs = ws ++ '_' :: (ms ++ '_' :: ys) := by
  obtain ⟨z, zs, rfl⟩ := List.exists_cons_of_ne_nil hzs
  obtain ⟨rfl, htail⟩ := List.cons.inj h
  rcases List.append_eq_append_iff.1 htail with ⟨ws, rfl, hrest⟩ | ⟨ws, rfl, hrest⟩
  · exact ⟨ws, rfl, hrest⟩
  · cases ws with
    | nil => exact ⟨[], by simp, hrest.symm⟩
    | cons w ws =>
      obtain ⟨rfl, -⟩ := List.cons.inj hrest
      exact absurd (List.mem_append_right _ List.mem_cons_self) hns

/-- What a name for a call of the function begins with before the own name, if the function begins
with another one. -/
theorem newName_overlaps {f g : String} (hfg : f ≠ g) (hbegins : f.toList <+: g.toList)
    (h : newName f n x = newName g m y) : ∃ w, g = f ++ "_" ++ toString n ++ w ∧
      "_" ++ x = w ++ "_" ++ toString m ++ "_" ++ y := by
  obtain ⟨zs, hg⟩ := hbegins
  have hlist := congrArg String.toList h
  rw [toList_newName, toList_newName, List.append_cancel_left_eq, ← hg, List.append_assoc,
    List.append_cancel_left_eq] at hlist
  have hzs : zs ≠ [] := by
    rintro rfl
    exact hfg (String.toList_inj.1 (by simpa using hg))
  obtain ⟨ws, rfl, hrest⟩ := append_cons_overlaps (underscore_notMem_toString n) hzs hlist
  refine ⟨String.ofList ws, String.toList_inj.1 ?_, String.toList_inj.1 ?_⟩
  · simp [← hg]
  · simpa using hrest

theorem newName_eq_of_overlap (hg : g = f ++ "_" ++ toString n ++ w)
    (hx : "_" ++ x = w ++ "_" ++ toString m ++ "_" ++ y) : newName f n x = newName g m y := by
  have hrest := congrArg String.toList hx
  simp only [String.toList_append] at hrest
  apply String.toList_inj.1
  subst hg
  simp only [newName, lead, String.toList_append, List.append_assoc] at hrest ⊢
  rw [hrest]

/-- Two calls that differ in the function or the number give the same name exactly if one of them
overlaps the other. -/
theorem gives_same_iff {a b : InlinedCall} (hne : a.name = b.name → a.number ≠ b.number) :
    (∃ x, a.Gives x ∧ b.Gives x) ↔ a.Overlaps b ∨ b.Overlaps a := by
  constructor
  · rintro ⟨_, ⟨x, hx, rfl⟩, y, hy, hname⟩
    have hdiffer : a.name ≠ b.name := by
      intro hsame
      rw [hsame] at hname
      exact hne hsame (newName_inj_number hname).symm
    have hlist := congrArg String.toList hname
    rw [toList_newName, toList_newName, List.append_cancel_left_eq] at hlist
    rcases List.append_eq_append_iff.1 hlist with ⟨zs, hzs, -⟩ | ⟨zs, hzs, -⟩
    · right
      obtain ⟨w, hw, hrest⟩ := newName_overlaps hdiffer.symm ⟨zs, hzs.symm⟩ hname
      exact ⟨w, hw, y, hy, x, hx, hrest⟩
    · left
      obtain ⟨w, hw, hrest⟩ := newName_overlaps hdiffer ⟨zs, hzs.symm⟩ hname.symm
      exact ⟨w, hw, x, hx, y, hy, hrest⟩
  · rintro (⟨w, hw, x, hx, y, hy, hrest⟩ | ⟨w, hw, x, hx, y, hy, hrest⟩)
    · exact ⟨_, ⟨x, hx, rfl⟩, y, hy, (newName_eq_of_overlap hw hrest).symm⟩
    · exact ⟨_, ⟨y, hy, rfl⟩, x, hx, newName_eq_of_overlap hw hrest⟩

theorem Numbered.apart_iff (h : Numbered c calls c') :
    (calls.Pairwise fun a b => ∀ x, a.Gives x → ¬b.Gives x) ↔
      calls.Pairwise fun a b => ¬a.Overlaps b ∧ ¬b.Overlaps a := by
  have hcalls {a b : InlinedCall} (hrising : a.name = b.name → a.number < b.number) :
      (∀ x, a.Gives x → ¬b.Gives x) ↔ ¬a.Overlaps b ∧ ¬b.Overlaps a := by
    rw [← not_or, ← gives_same_iff fun hname => Nat.ne_of_lt (hrising hname)]
    simp only [not_exists, not_and]
  constructor
  · exact fun hapart => h.rising.imp₂ (fun _ _ hrising => (hcalls hrising).1) hapart
  · exact fun hapart => h.rising.imp₂ (fun _ _ hrising => (hcalls hrising).2) hapart

variable {known : Table Definition}

/-- A block whose calls are all inlined in one pass. -/
theorem InlinesAll.of_pass (hcalled : ss.any (callsKnown known) = true)
    (hpass : pass known c ss = .ok (out, c')) (hdone : out.any (callsKnown known) = false)
    (h : Inlines known c (ss.map (·.value)) calls c'') : InlinesAll known c ss calls := by
  obtain ⟨calls', hcalls, -, -⟩ := exists_inlines_pass hpass
  obtain ⟨rfl, rfl⟩ := h.unique hcalls
  rw [← List.append_nil calls]
  exact .step hcalled hpass hcalls (.done hdone)

theorem Loop.of_pass (h : Loop known n c ss outcome) (hcalled : ss.any (callsKnown known) = true)
    (hpass : pass known c ss = .ok (out, c')) (hdone : out.any (callsKnown known) = false) :
    outcome = .ok out := by
  cases h with
  | done hnone =>
    rw [hcalled] at hnone
    cases hnone
  | fault _ hfault =>
    rw [hpass] at hfault
    cases hfault
  | step _ hpass' hloop =>
    cases hpass.symm.trans hpass'
    cases hloop with
    | done => rfl
    | fault hcalled' =>
      rw [hdone] at hcalled'
      cases hcalled'
    | step hcalled' =>
      rw [hdone] at hcalled'
      cases hcalled'

theorem inlineAll_of_pass {ds : List Definition}
    (hrange : usedUp? (countersFor (Table.ofDefinitions ds) ss) = none)
    (hcycle : (CallGraph.ofDefinitions (Table.ofDefinitions ds)).cycle? = none)
    (hcalled : ss.any (callsKnown (Table.ofDefinitions ds)) = true)
    (hpass : pass (Table.ofDefinitions ds) (countersFor (Table.ofDefinitions ds) ss) ss =
      .ok (out, c))
    (hdone : out.any (callsKnown (Table.ofDefinitions ds)) = false) :
    Statement.inlineAll ds ss = .ok out := by
  obtain ⟨n, -, hloop⟩ := loop_inlineAll hrange hcycle
  exact hloop.of_pass hcalled hpass hdone

/-- One call of each of two functions. -/
theorem exists_inlines_pair {f g : Definition} (hname : f.name ≠ g.name) (c : Counters)
    (op : BoolOp) (x y : String) (sp : Span) : ∃ c', Inlines (Table.ofDefinitions [f, g]) c
      [.logical op [.call f.name [.var x sp] sp, .call g.name [.var y sp] sp] sp]
      [⟨f, c.getD f.name 0⟩, ⟨g, c.getD g.name 0⟩] c' := by
  have htable : Table.ofDefinitions [f, g] =
      ((∅ : Table Definition).insert f.name f).insert g.name g := rfl
  have hf : (Table.ofDefinitions [f, g])[f.name]? = some f := by
    rw [htable, Table.getElem?_insert, if_neg hname.symm, Table.getElem?_insert, if_pos rfl]
  have hg : (Table.ofDefinitions [f, g])[g.name]? = some g := by
    rw [htable, Table.getElem?_insert, if_pos rfl]
  have hnext : (c.insert f.name (c.getD f.name 0 + 1)).getD g.name 0 = c.getD g.name 0 := by
    rw [Table.getD_insert, if_neg hname]
  have hsecond : Inlines (Table.ofDefinitions [f, g])
      (c.insert f.name (c.getD f.name 0 + 1)) [.call g.name [.var y sp] sp]
      [⟨g, (c.insert f.name (c.getD f.name 0 + 1)).getD g.name 0⟩] _ :=
    .call hg (.var y sp) .nil
  rw [hnext] at hsecond
  exact ⟨_, .node (e := .logical op _ sp) nofun (.call hf (.var x sp) hsecond) .nil⟩

end Inline

open Inline Outcome

/-- Inlining keeps names apart exactly if no call overlaps another one and none gives a name that one
of the inlined functions reads without owning it. -/
theorem inlining_hygienic_iff (h : Statement.inlineAll ds ss = .ok out) :
    (∃! calls, InlinesAll (Table.ofDefinitions ds) (countersFor (Table.ofDefinitions ds) ss)
      ss calls) ∧
    ∀ calls, InlinesAll (Table.ofDefinitions ds) (countersFor (Table.ofDefinitions ds) ss)
      ss calls →
      (∀ x ∈ namesOf out, x ∈ namesOf ss ∨ ∃ k ∈ calls, k.Brings x) ∧
      (∀ k ∈ calls, k.number < greatestNumber) ∧
      (Hygienic ss calls ↔
        (calls.Pairwise fun a b => ¬a.Overlaps b ∧ ¬b.Overlaps a) ∧
        ∀ k ∈ calls, ∀ k' ∈ calls, ∀ x ∈ k'.definition.globals, ¬k.Gives x) := by
  obtain ⟨n, hloop⟩ := loop_of_inlineAll h
  obtain ⟨calls, hcalls, hnames⟩ := hloop.exists_inlinesAll
  refine ⟨⟨calls, hcalls, fun _ hcalls' => hcalls'.unique hcalls⟩, ?_⟩
  intro calls' hcalls'
  obtain rfl := hcalls'.unique hcalls
  refine ⟨hnames, hcalls.in_range, ?_⟩
  obtain ⟨c', hnumbered⟩ := hcalls.numbered
  constructor
  · intro hyg
    exact ⟨hnumbered.apart_iff.1 hyg.apart,
      fun k hk k' hk' x hx hgives => hyg.unread k hk x hgives k' hk' hx⟩
  · rintro ⟨hapart, hunread⟩
    refine ⟨hnumbered.apart_iff.2 hapart, ?_, ?_⟩
    · exact fun k hk x hx => hcalls.unused hk hx
    · exact fun k hk x hgives k' hk' hx => hunread k hk k' hk' x hx hgives

/-- A name with a number that is in use in the block, and a function whose name begins with that of
another one but not with the number of one of its calls. -/
theorem inlining_hygienic_iff_numbered :
    let f : Definition := ⟨"f", ["x"], [], some (.var "x" .zero)⟩
    let g : Definition := ⟨"f_x", ["y"], [⟨"z", .set, .var "c" .zero⟩], some (.var "z" .zero)⟩
    let ss : List Statement := [⟨"a", .set, .var "_inline_f_3_x" .zero⟩,
      ⟨"z", .set, .logical .or
        [.call "f" [.var "a" .zero] .zero, .call "f_x" [.var "b" .zero] .zero] .zero⟩]
    ∃ out, Statement.inlineAll [f, g] ss = .ok out ∧
      InlinesAll (Table.ofDefinitions [f, g]) (countersFor (Table.ofDefinitions [f, g]) ss) ss
        [⟨f, 4⟩, ⟨g, 0⟩] ∧
      Hygienic ss [⟨f, 4⟩, ⟨g, 0⟩] := by
  intro f g ss
  have hcalled : ss.any (callsKnown (Table.ofDefinitions [f, g])) = true := by decide +kernel
  have hpassed : (pass (Table.ofDefinitions [f, g]) (countersFor (Table.ofDefinitions [f, g]) ss)
      ss).map (fun r => r.1.any (callsKnown (Table.ofDefinitions [f, g]))) = .ok false := by
    decide +kernel
  obtain ⟨⟨out, c'⟩, hpass, hdone⟩ := map_eq_ok.1 hpassed
  have hinline : Statement.inlineAll [f, g] ss = .ok out :=
    inlineAll_of_pass (by decide +kernel) (by decide +kernel) hcalled hpass hdone
  obtain ⟨c'', hcalls⟩ := exists_inlines_pair (f := f) (g := g) (by decide)
    (countersFor (Table.ofDefinitions [f, g]) ss) .or "a" "b" .zero
  have hfour : (countersFor (Table.ofDefinitions [f, g]) ss).getD f.name 0 = 4 := by
    decide +kernel
  have hzero : (countersFor (Table.ofDefinitions [f, g]) ss).getD g.name 0 = 0 := by
    decide +kernel
  rw [hfour, hzero] at hcalls
  have hall := InlinesAll.of_pass hcalled hpass hdone
    ((Inlines.var "_inline_f_3_x" .zero).append hcalls)
  have hiff := ((inlining_hygienic_iff hinline).2 _ hall).2.2
  refine ⟨out, hinline, hall, hiff.2 ⟨?_, ?_⟩⟩
  · refine List.pairwise_pair.2 ⟨?_, ?_⟩
    · exact fun hoverlaps => absurd hoverlaps.isPrefix (by decide)
    · exact fun hoverlaps => absurd hoverlaps.isPrefix (by decide)
  · intro k _ k' hk' x hx hgives
    have hplain : ∀ k ∈ [(⟨f, 4⟩ : InlinedCall), ⟨g, 0⟩],
        (k.definition.globals.all fun x => !decide (Reserved x)) = true := by
      decide +kernel
    have hunreserved := all_eq_true_iff.1 (hplain k' hk') x hx
    rw [Bool.not_eq_true', decide_eq_false_iff_not] at hunreserved
    exact hunreserved hgives.reserved

/-- The local `x_0_y` of the first function gets the name that the parameter `y` of the second one
gets, so that the value of the first call is lost. -/
theorem inlining_overlapping_names :
    let _ : Draws := .middle
    let f : Definition :=
      ⟨"f", ["x"], [⟨"x_0_y", .set, .var "x" .zero⟩], some (.var "x_0_y" .zero)⟩
    let g : Definition := ⟨"f_0_x", ["y"], [], some (.var "y" .zero)⟩
    let ss : List Statement := [⟨"z", .set, .logical .or
      [.call "f" [.var "a" .zero] .zero, .call "f_0_x" [.var "b" .zero] .zero] .zero⟩]
    let scope : Scope := Table.ofList [("a", .bool true), ("b", .bool false)]
    let z (after : Except Eval.Stop Scope) : Option String :=
      after.toOption.bind fun scope => scope["z"]?.map Value.text
    ∃ out, Statement.inlineAll [f, g] ss = .ok out ∧
      Statement.blockText out = "_inline_f_0_x = a\n_inline_f_0_x_0_y = _inline_f_0_x\n" ++
        "_inline_f_0_x_0_y = b\nz = _inline_f_0_x_0_y or _inline_f_0_x_0_y" ∧
      InlinesAll (Table.ofDefinitions [f, g]) (countersFor (Table.ofDefinitions [f, g]) ss) ss
        [⟨f, 0⟩, ⟨g, 0⟩] ∧
      ¬Hygienic ss [⟨f, 0⟩, ⟨g, 0⟩] ∧
      z ((Interpreter.builtin.withDefinitions [f, g]).run scope ss) = some "True" ∧
      z (Interpreter.builtin.run scope out) = some "False" := by
  intro _ f g ss scope z
  have hcalled : ss.any (callsKnown (Table.ofDefinitions [f, g])) = true := by decide +kernel
  have hpassed : (pass (Table.ofDefinitions [f, g]) (countersFor (Table.ofDefinitions [f, g]) ss)
      ss).map (fun r => (r.1.any (callsKnown (Table.ofDefinitions [f, g])),
        Statement.blockText r.1, z (Interpreter.builtin.run scope r.1))) =
      .ok (false, "_inline_f_0_x = a\n_inline_f_0_x_0_y = _inline_f_0_x\n" ++
        "_inline_f_0_x_0_y = b\nz = _inline_f_0_x_0_y or _inline_f_0_x_0_y", some "False") := by
    decide +kernel
  obtain ⟨⟨out, c'⟩, hpass, hresult⟩ := map_eq_ok.1 hpassed
  obtain ⟨hdone, hresult⟩ := Prod.mk.inj hresult
  obtain ⟨htext, hrun⟩ := Prod.mk.inj hresult
  have hinline : Statement.inlineAll [f, g] ss = .ok out :=
    inlineAll_of_pass (by decide +kernel) (by decide +kernel) hcalled hpass hdone
  obtain ⟨c'', hcalls⟩ := exists_inlines_pair (f := f) (g := g) (by decide)
    (countersFor (Table.ofDefinitions [f, g]) ss) .or "a" "b" .zero
  have hf : (countersFor (Table.ofDefinitions [f, g]) ss).getD f.name 0 = 0 := by decide +kernel
  have hg : (countersFor (Table.ofDefinitions [f, g]) ss).getD g.name 0 = 0 := by decide +kernel
  rw [hf, hg] at hcalls
  refine ⟨out, hinline, htext, .of_pass hcalled hpass hdone hcalls, ?_, by decide +kernel, hrun⟩
  intro hyg
  have hlocal : InlinedCall.Gives ⟨f, 0⟩ "_inline_f_0_x_0_y" :=
    ⟨"x_0_y", Definition.mem_ownNames.2 (.inr ⟨_, List.mem_cons_self, rfl⟩), by decide⟩
  have hparam : InlinedCall.Gives ⟨g, 0⟩ "_inline_f_0_x_0_y" :=
    ⟨"y", Definition.mem_ownNames.2 (.inl List.mem_cons_self), by decide⟩
  exact List.pairwise_pair.1 hyg.apart _ hlocal hparam

end Formulae
