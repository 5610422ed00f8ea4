import Formulae.Proofs.Inline.Trace

namespace Formulae
set_option autoImplicit true

theorem Definition.mem_globals {d : Definition} :
    x ∈ d.globals ↔ ((∃ s ∈ d.body, x ∈ s.reads) ∨ x ∈ d.resultReads) ∧ x ∉ d.ownNames := by
  rw [globals, mem_sdiff_iff, mem_union_iff, Statement.mem_readBy]

theorem Statement.mem_reads {s : Statement} :
    x ∈ s.reads ↔ x ∈ s.value.identifiers ∨ s.op ≠ .set ∧ s.target = x := by
  obtain ⟨target, op, value⟩ := s
  cases op with
  | set => simp [reads]
  | update op => simp [reads, or_comm]

namespace Inline
open Outcome

variable {known : Table Definition}

/-- Is the name a global of a function that the expression calls? -/
def Imports (known : Table Definition) (e : Expr) (x : String) : Prop :=
  ∃ g m d, e.HasCall g m ∧ known[g]? = some d ∧ x ∈ d.globals

theorem imports_iff {e : Expr} : Imports known e x ↔ (∃ e' ∈ e.operands, Imports known e' x) ∨
    ∃ g m d, e.callSite? = some (g, m) ∧ known[g]? = some d ∧ x ∈ d.globals := by
  simp only [Imports, Expr.hasCall_iff (e := e)]
  grind

theorem mem_identifiers_renamed {d : Definition} {e : Expr} (hx : ¬Reserved x) (n : Nat) :
    x ∈ (e.rename (newNames d n)).identifiers ↔ x ∈ e.identifiers ∧ x ∉ d.ownNames := by
  rw [Expr.mem_identifiers_rename]
  constructor
  · rintro ⟨y, hy, rfl⟩
    rw [getD_newNames] at hx ⊢
    split at hx
    · exact absurd (reserved_newName _ _ _) hx
    · next hown =>
      rw [if_neg hown]
      exact ⟨hy, hown⟩
  · rintro ⟨hread, hown⟩
    exact ⟨x, hread, by rw [getD_newNames, if_neg hown]⟩

theorem mem_reads_renamed {d : Definition} {s : Statement} (hx : ¬Reserved x) (n : Nat)
    (hs : s ∈ d.body) :
    x ∈ (s.renamed (newNames d n)).reads ↔ x ∈ s.reads ∧ x ∉ d.ownNames := by
  have hown : s.target ∈ d.ownNames := Definition.mem_ownNames.2 (.inr ⟨s, hs, rfl⟩)
  have htarget : (newNames d n).getD s.target s.target ≠ x := by
    rintro rfl
    rw [getD_newNames, if_pos hown] at hx
    exact hx (reserved_newName _ _ _)
  rw [Statement.mem_reads, Statement.mem_reads (s := s)]
  simp only [Statement.renamed, mem_identifiers_renamed hx]
  grind

theorem exists_mem_passing {names : Table String} {params : List String} {args : List Expr}
    (hlen : args.length = params.length) :
    (∃ s ∈ passing names params args, x ∈ s.reads) ↔ ∃ e ∈ args, x ∈ e.identifiers := by
  induction params generalizing args with
  | nil =>
    obtain rfl := List.length_eq_zero_iff.1 hlen
    simp [passing]
  | cons y params ih =>
    obtain ⟨e, args, rfl⟩ := List.exists_cons_of_length_eq_add_one hlen
    rw [exists_mem_cons, ← ih (Nat.succ_inj.1 hlen)]
    exact exists_mem_cons

/-- What is read after an expansion, apart from new names, is what the expression reads and what the
functions that it calls read as globals. -/
def Accounted (known : Table Definition) (_ : Counters) (e : Expr) (a : Expansion Expr) : Prop :=
  ∀ x, ¬Reserved x → (x ∈ a.value.identifiers ∨ (∃ s ∈ a.before, x ∈ s.reads) ↔
    x ∈ e.identifiers ∨ Imports known e x)

theorem Chain.accounted (h : Chain known (Accounted known) c es b) (hx : ¬Reserved x) :
    (∃ e ∈ b.value, x ∈ e.identifiers) ∨ (∃ s ∈ b.before, x ∈ s.reads) ↔
      (∃ e ∈ es, x ∈ e.identifiers) ∨ ∃ e ∈ es, Imports known e x := by
  induction h with
  | nil => simp
  | @cons c e a es b _ ha _ ih =>
    have hfirst := ha x hx
    simp only [exists_mem_cons, exists_mem_append]
    grind

theorem accounted_expandExpr (h : expandExpr known c e = .ok a) : Accounted known c e a := by
  apply expandExpr_induct (P := Accounted known) _ _ h
  · intro c e b hcallee hb x hx
    have hunknown : ¬∃ g m d, e.callSite? = some (g, m) ∧ known[g]? = some d ∧ x ∈ d.globals := by
      rintro ⟨g, m, d, hsite, hd, -⟩
      rw [hcallee g (Expr.callee?_eq_some.2 ⟨m, hsite⟩)] at hd
      cases hd
    rw [Expr.mem_identifiers, Expr.ident?_withOperands, Expr.operands_withOperands hb.length,
      or_assoc, hb.accounted hx, Expr.mem_identifiers (e := e), imports_iff, or_iff_left hunknown,
      or_assoc]
  · intro c f args sp d b r hd hb hr x hx
    obtain ⟨hlen, -, e, hresult, rfl⟩ := expandCall_eq_ok hr
    have hidentifiers : x ∈ (Expr.call f args sp).identifiers ↔ ∃ e ∈ args, x ∈ e.identifiers := by
      simp [Expr.identifiers]
    have himports : Imports known (.call f args sp) x ↔
        (∃ e ∈ args, Imports known e x) ∨ x ∈ d.globals := by
      rw [imports_iff]
      simp [Expr.callSite?, Expr.callee?, Expr.operands, hd]
    have hbody : (∃ s ∈ d.body.map (Statement.renamed (newNames d (b.counters.getD d.name 0))),
        x ∈ s.reads) ↔ (∃ s ∈ d.body, x ∈ s.reads) ∧ x ∉ d.ownNames := by
      rw [exists_mem_map, ← exists_and_right]
      simp only [and_assoc]
      exact exists_congr fun s => and_congr_right fun hs => mem_reads_renamed hx _ hs
    have hglobals : x ∈ d.globals ↔
        ((∃ s ∈ d.body, x ∈ s.reads) ∨ x ∈ e.identifiers) ∧ x ∉ d.ownNames := by
      rw [Definition.mem_globals]
      simp [Definition.resultReads, hresult]
    have hargs := hb.accounted hx
    rw [hidentifiers, himports, hglobals]
    simp only [exists_mem_append, exists_mem_passing hlen, hbody, mem_identifiers_renamed hx]
    grind

theorem reads_pass {ss : List Statement} (h : pass known c ss = .ok (out, c'))
    (hx : ¬Reserved x) : (∃ s ∈ out, x ∈ s.reads) ↔
      (∃ s ∈ ss, x ∈ s.reads) ∨ ∃ s ∈ ss, Imports known s.value x := by
  induction ss generalizing c out with
  | nil =>
    cases h
    simp
  | cons s ss ih =>
    obtain ⟨a, rest, ha, hrest, rfl⟩ := pass_cons_eq_ok.1 h
    have hexpanded := accounted_expandExpr ha x hx
    have hkept : (x ∈ Statement.reads { s with value := a.value } ∨ ∃ t ∈ a.before, x ∈ t.reads) ↔
        x ∈ s.reads ∨ Imports known s.value x := by
      rw [Statement.mem_reads, Statement.mem_reads (s := s)]
      grind
    have hmore := ih hrest
    simp only [exists_mem_append, exists_mem_cons]
    grind

/-- Is the name a global of a function that is reached? -/
def ReachesGlobal (known : Table Definition) (ss : List Statement) (x : String) : Prop :=
  ∃ f n d, Reached known ss f n ∧ known[f]? = some d ∧ x ∈ d.globals

/-- Functions are reached from the block itself, or else after the pass. -/
theorem reachesGlobal_pass {ss : List Statement} (h : pass known c ss = .ok (out, c')) :
    ReachesGlobal known ss x ↔ (∃ s ∈ ss, Imports known s.value x) ∨ ReachesGlobal known out x := by
  constructor
  · rintro ⟨f, n, d, hreached, hd, hx⟩
    cases hreached with
    | block hcall =>
      obtain ⟨s, hs, hcall⟩ := hcall
      exact .inl ⟨s, hs, f, n, d, hcall, hd, hx⟩
    | @definition g m d' _ _ hg hd' hcall =>
      have hf : f ∈ known := Table.mem_iff_getElem?.2 ⟨d, hd⟩
      exact .inr ⟨f, n, d, (reached_pass h hf).2 ⟨g, m, d', hg, hd', hcall⟩, hd, hx⟩
  · rintro (⟨s, hs, f, n, d, hcall, hd, hx⟩ | ⟨f, n, d, hreached, hd, hx⟩)
    · exact ⟨f, n, d, .block ⟨s, hs, hcall⟩, hd, hx⟩
    · obtain ⟨g, m, d', hg, hd', hcall⟩ :=
        (reached_pass h (Table.mem_iff_getElem?.2 ⟨d, hd⟩)).1 hreached
      exact ⟨f, n, d, .definition hg hd' hcall, hd, hx⟩

theorem not_reachesGlobal {ss : List Statement} (h : ss.any (callsKnown known) = false) :
    ¬ReachesGlobal known ss x := by
  rintro ⟨f, n, d, hreached, hd, -⟩
  exact not_reached_of_not_called h (Table.mem_iff_getElem?.2 ⟨d, hd⟩) hreached

theorem Loop.reads (h : Loop known n c ss (.ok out)) (hx : ¬Reserved x) :
    (∃ s ∈ out, x ∈ s.reads) ↔ (∃ s ∈ ss, x ∈ s.reads) ∨ ReachesGlobal known ss x := by
  generalize houtcome : (Except.ok out : Except Fault (List Statement)) = outcome at h
  induction h with
  | done hnone =>
    cases houtcome
    exact (or_iff_left (not_reachesGlobal hnone)).symm
  | fault => cases houtcome
  | step _ hpass _ ih =>
    rw [ih houtcome, reads_pass hpass hx, reachesGlobal_pass hpass, or_assoc]

/-- Unknown functions are reached after a pass as they were before it. -/
theorem reached_unknown_pass {ss : List Statement} (h : pass known c ss = .ok (out, c'))
    (hf : f ∉ known) : Reached known out f n ↔ Reached known ss f n := by
  constructor
  · intro hreached
    cases hreached with
    | block hcall =>
      rcases (blockHasCall_pass h).1 hcall with hcall | ⟨s, hs, g, m, d, hg, hd, hcall⟩
      · exact .block hcall.2
      · exact .definition (.block ⟨s, hs, hg⟩) hd hcall
    | definition hg hd hcall =>
      obtain ⟨g', m', d', hg', hd', hcall'⟩ :=
        (reached_pass h (Table.mem_iff_getElem?.2 ⟨_, hd⟩)).1 hg
      exact .definition (.definition hg' hd' hcall') hd hcall
  · intro hreached
    cases hreached with
    | block hcall => exact .block ((blockHasCall_pass h).2 (.inl ⟨hf, hcall⟩))
    | @definition g m d _ _ hg hd hcall =>
      cases hg with
      | block hg =>
        obtain ⟨s, hs, hg⟩ := hg
        exact .block ((blockHasCall_pass h).2 (.inr ⟨s, hs, g, m, d, hg, hd, hcall⟩))
      | definition hg' hd' hcall' =>
        exact .definition ((reached_pass h (Table.mem_iff_getElem?.2 ⟨d, hd⟩)).2
          ⟨_, _, _, hg', hd', hcall'⟩) hd hcall

theorem Loop.reached_unknown (h : Loop known n c ss (.ok out)) (hf : f ∉ known) :
    Reached known out f m ↔ Reached known ss f m := by
  generalize houtcome : (Except.ok out : Except Fault (List Statement)) = outcome at h
  induction h with
  | done =>
    cases houtcome
    rfl
  | fault => cases houtcome
  | step _ hpass _ ih => rw [ih houtcome, reached_unknown_pass hpass hf]

/-- Once no known function is called, the functions reached are those called in the block. -/
theorem reached_iff_of_not_called {ss : List Statement} (h : ss.any (callsKnown known) = false) :
    Reached known ss f n ↔ BlockHasCall ss f n := by
  refine ⟨fun hreached => ?_, .block⟩
  cases hreached with
  | block hcall => exact hcall
  | definition hg hd =>
    exact absurd hg (not_reached_of_not_called h (Table.mem_iff_getElem?.2 ⟨_, hd⟩))

theorem Loop.calls (h : Loop known n c ss (.ok out)) :
    (∃ m, BlockHasCall out f m) ↔ f ∉ known ∧ ∃ m, Reached known ss f m := by
  have hnone := h.not_called
  constructor
  · rintro ⟨m, hcall⟩
    have hf : f ∉ known := fun hf => not_reached_of_not_called hnone hf (.block hcall)
    exact ⟨hf, m, (h.reached_unknown hf).1 (.block hcall)⟩
  · rintro ⟨hf, m, hreached⟩
    exact ⟨m, (reached_iff_of_not_called hnone).1 ((h.reached_unknown hf).2 hreached)⟩

/-- A statement, and whether inlining has put it into the block. -/
structure Placed where
  inserted : Bool
  statement : Statement

/-- A pass over a block, which inserts statements before the one whose calls it replaces. -/
inductive Places (known : Table Definition) :
    Counters → List Placed → List Placed → Counters → Prop
  | nil : Places known c [] [] c
  | cons : expandExpr known c p.statement.value = .ok a →
      Places known a.counters ps qs c' →
      Places known c (p :: ps) (a.before.map (Placed.mk true) ++
        { p with statement := { p.statement with value := a.value } } :: qs) c'

/-- All passes over a block, one after the other. -/
inductive PlacesAll (known : Table Definition) : Counters → List Placed → List Placed → Prop
  | done : (ps.map (·.statement)).any (callsKnown known) = false → PlacesAll known c ps ps
  | step : (ps.map (·.statement)).any (callsKnown known) = true → Places known c ps qs c' →
      PlacesAll known c' qs rs → PlacesAll known c ps rs

/-- What inlining leaves of a statement as it was. -/
def frame (s : Statement) : String × AssignOp := (s.target, s.op)

/-- The statements that have not been inserted, but for their values. -/
def originals (ps : List Placed) : List (String × AssignOp) :=
  (ps.filter (!·.inserted)).map (frame ·.statement)

theorem originals_append (ps qs : List Placed) :
    originals (ps ++ qs) = originals ps ++ originals qs := by
  simp [originals]

theorem originals_inserted (ss : List Statement) : originals (ss.map (Placed.mk true)) = [] := by
  simp [originals]

theorem originals_block (ss : List Statement) :
    originals (ss.map (Placed.mk false)) = ss.map frame := by
  simp [originals, List.filter_map, Function.comp_def]

theorem originals_cons_congr {p q : Placed} (hinserted : p.inserted = q.inserted)
    (hframe : frame p.statement = frame q.statement) (h : originals ps = originals qs) :
    originals (p :: ps) = originals (q :: qs) := by
  have hsingle : originals [p] = originals [q] := by
    simp only [originals, List.filter_cons, hinserted]
    split
    · simpa using hframe
    · rfl
  rw [← List.singleton_append, originals_append, hsingle, h, ← originals_append,
    List.singleton_append]

theorem Places.originals (h : Places known c ps qs c') : originals qs = Inline.originals ps := by
  induction h with
  | nil => rfl
  | cons _ _ ih =>
    rw [originals_append, originals_inserted, List.nil_append]
    exact originals_cons_congr rfl rfl ih

theorem PlacesAll.originals (h : PlacesAll known c ps qs) : originals qs = Inline.originals ps := by
  induction h with
  | done => rfl
  | step _ hplaces _ ih => rw [ih, hplaces.originals]

/-- Every statement that has been inserted assigns to a new name. -/
def InsertedReserved (ps : List Placed) : Prop :=
  ∀ p ∈ ps, p.inserted = true → Reserved p.statement.target

theorem Chain.reserved
    (h : Chain known (fun _ _ a => ∀ s ∈ a.before, Reserved s.target) c es b) :
    ∀ s ∈ b.before, Reserved s.target := by
  induction h with
  | nil => simp
  | cons _ ha _ ih => exact List.forall_mem_append.2 ⟨ha, ih⟩

theorem reserved_expandExpr (h : expandExpr known c e = .ok a) :
    ∀ s ∈ a.before, Reserved s.target := by
  apply expandExpr_induct (P := fun _ _ a => ∀ s ∈ a.before, Reserved s.target) _ _ h
  · intro c e b _ hb
    exact hb.reserved
  · intro c f args sp d b r hd hb hr
    obtain ⟨-, -, e, -, rfl⟩ := expandCall_eq_ok hr
    have hnew (x : String) (hx : x ∈ d.ownNames) :
        Reserved ((newNames d (b.counters.getD d.name 0)).getD x x) := by
      rw [getD_newNames, if_pos hx]
      exact reserved_newName _ _ _
    refine List.forall_mem_append.2 ⟨hb.reserved, List.forall_mem_append.2 ⟨?_, ?_⟩⟩
    · intro s hs
      obtain ⟨x, hx, -, -, rfl⟩ := mem_passing hs
      exact hnew x (Definition.mem_ownNames.2 (.inl hx))
    · rw [List.forall_mem_map]
      exact fun s hs => hnew s.target (Definition.mem_ownNames.2 (.inr ⟨s, hs, rfl⟩))

theorem Places.reserved (h : Places known c ps qs c') (hps : InsertedReserved ps) :
    InsertedReserved qs := by
  induction h with
  | nil => exact hps
  | cons ha _ ih =>
    obtain ⟨hp, hps⟩ := List.forall_mem_cons.1 hps
    refine List.forall_mem_append.2 ⟨?_, List.forall_mem_cons.2 ⟨hp, ih hps⟩⟩
    exact List.forall_mem_map.2 fun s hs _ => reserved_expandExpr ha s hs

theorem PlacesAll.reserved (h : PlacesAll known c ps qs) (hps : InsertedReserved ps) :
    InsertedReserved qs := by
  induction h with
  | done => exact hps
  | step _ hplaces _ ih => exact ih (hplaces.reserved hps)

theorem exists_places {ps : List Placed}
    (h : pass known c (ps.map (·.statement)) = .ok (out, c')) :
    ∃ qs, Places known c ps qs c' ∧ qs.map (·.statement) = out := by
  induction ps generalizing c out with
  | nil =>
    cases h
    exact ⟨[], .nil, rfl⟩
  | cons p ps ih =>
    obtain ⟨a, rest, ha, hrest, rfl⟩ := pass_cons_eq_ok.1 h
    obtain ⟨qs, hplaces, rfl⟩ := ih hrest
    exact ⟨_, .cons ha hplaces, by simp [Function.comp_def]⟩

theorem Loop.exists_placesAll (h : Loop known n c ss (.ok out))
    (hss : ps.map Placed.statement = ss) :
    ∃ qs, PlacesAll known c ps qs ∧ qs.map (·.statement) = out := by
  generalize houtcome : (Except.ok out : Except Fault (List Statement)) = outcome at h
  induction h generalizing ps with
  | done hnone =>
    cases houtcome
    subst hss
    exact ⟨ps, .done hnone, rfl⟩
  | fault => cases houtcome
  | step hcalled hpass _ ih =>
    subst hss
    obtain ⟨qs, hplaces, rfl⟩ := exists_places hpass
    obtain ⟨rs, hall, hrs⟩ := ih rfl houtcome
    exact ⟨rs, .step hcalled hplaces hall, hrs⟩

/-- The statements that assign to other names than new ones. -/
def unreserved (ss : List Statement) : List Statement :=
  ss.filter fun s => ¬Reserved s.target

theorem map_frame_unreserved (ss : List Statement) :
    (unreserved ss).map frame = (ss.map frame).filter fun x => ¬Reserved x.1 := by
  rw [unreserved, List.filter_map]
  rfl

/-- None of the statements that are left out was there before. -/
theorem InsertedReserved.unreserved {ps : List Placed} (h : InsertedReserved ps) :
    (unreserved (ps.map (·.statement))).map frame =
      (originals ps).filter fun x => ¬Reserved x.1 := by
  rw [map_frame_unreserved, originals, List.map_map]
  simp only [List.filter_map, List.filter_filter]
  congr 1
  apply List.filter_congr
  intro p hp
  have hreserved := h p hp
  change decide (¬Reserved p.statement.target) =
    (decide (¬Reserved p.statement.target) && !p.inserted)
  cases hinserted : p.inserted with
  | false => simp
  | true => simp [hreserved hinserted]

end Inline

open Inline Outcome

/-- Inlining keeps the statements of the block but for their values, and inserts only assignments to
new names. The other names that are read afterwards are those that the block read and the globals of
the functions reached, and what is called are the unknown functions reached. -/
theorem inlining_accounts_for_names (h : Statement.inlineAll ds ss = .ok out) :
    (unreserved out).map frame = (unreserved ss).map frame ∧
    (∃ placed, PlacesAll (Table.ofDefinitions ds) (countersFor (Table.ofDefinitions ds) ss)
        (ss.map (Placed.mk false)) placed ∧
      placed.map (·.statement) = out ∧ originals placed = ss.map frame ∧
      ∀ p ∈ placed, p.inserted = true → Reserved p.statement.target) ∧
    (∀ x, ¬Reserved x → ((∃ s ∈ out, x ∈ s.reads) ↔ (∃ s ∈ ss, x ∈ s.reads) ∨
      ∃ f n d, Reached (Table.ofDefinitions ds) ss f n ∧
        (Table.ofDefinitions ds)[f]? = some d ∧ x ∈ d.globals)) ∧
    ∀ f, (∃ s ∈ out, f ∈ s.value.functions) ↔
      f ∉ Table.ofDefinitions ds ∧ ∃ n, Reached (Table.ofDefinitions ds) ss f n := by
  obtain ⟨n, hloop⟩ := loop_of_inlineAll h
  have hstart : (ss.map (Placed.mk false)).map Placed.statement = ss := by
    simp [Function.comp_def]
  obtain ⟨placed, hplaced, rfl⟩ := hloop.exists_placesAll hstart
  have horiginals : originals placed = ss.map frame :=
    hplaced.originals.trans (originals_block ss)
  have hreserved : InsertedReserved placed := hplaced.reserved (by simp [InsertedReserved])
  refine ⟨?_, ⟨placed, hplaced, rfl, horiginals, hreserved⟩, fun x hx => hloop.reads hx,
    fun f => ?_⟩
  · rw [hreserved.unreserved, horiginals, map_frame_unreserved]
  · simp only [← Statement.mem_calledBy, mem_calledBy_iff_hasCall, hloop.calls]

/-- An argument for a parameter that is not used stays, and so do a global and an unknown function
that are met only in the second pass. -/
theorem inlining_accounts_for_names_unused :
    let scale : Definition := ⟨"scale", ["a"], [], some (.binary .add
      (.call "exp" [.var "a" .zero] .zero) (.var "g" .zero) .zero)⟩
    let shift : Definition := ⟨"shift", ["a", "u"],
      [⟨"b", .set, .call "scale" [.var "a" .zero] .zero⟩], some (.var "b" .zero)⟩
    let ss : List Statement :=
      [⟨"y", .update .add, .call "shift" [.var "x" .zero, .var "w" .zero] .zero⟩]
    ∃ out, Statement.inlineAll [scale, shift] ss = .ok out ∧
      Statement.blockText out = "_inline_shift_0_a = x\n_inline_shift_0_u = w\n" ++
        "_inline_scale_0_a = _inline_shift_0_a\n" ++
        "_inline_shift_0_b = exp(_inline_scale_0_a) + g\ny += _inline_shift_0_b" ∧
      (unreserved out).map frame = [("y", .update .add)] ∧
      (∀ x ∈ ["x", "w", "y", "g"], ∃ s ∈ out, x ∈ s.reads) ∧
      ∃ s ∈ out, "exp" ∈ s.value.functions := by
  intro scale shift ss
  have hread : (Statement.inlineAll [scale, shift] ss).map Statement.blockText =
      .ok ("_inline_shift_0_a = x\n_inline_shift_0_u = w\n" ++
        "_inline_scale_0_a = _inline_shift_0_a\n" ++
        "_inline_shift_0_b = exp(_inline_scale_0_a) + g\ny += _inline_shift_0_b") := by
    rw [Statement.inlineAll_eq_passes (by decide +kernel) (by decide +kernel)]
    decide +kernel
  obtain ⟨out, hout, htext⟩ := map_eq_ok.1 hread
  obtain ⟨hframes, -, hreads, hcalls⟩ := inlining_accounts_for_names hout
  have htable : Table.ofDefinitions [scale, shift] =
      ((∅ : Table Definition).insert "scale" scale).insert "shift" shift := rfl
  have hscale : (Table.ofDefinitions [scale, shift])["scale"]? = some scale := by
    rw [htable, Table.getElem?_insert, if_neg (by decide), Table.getElem?_insert, if_pos rfl]
  have hshift : (Table.ofDefinitions [scale, shift])["shift"]? = some shift := by
    rw [htable, Table.getElem?_insert, if_pos rfl]
  have hreached : Reached (Table.ofDefinitions [scale, shift]) ss "scale" 1 :=
    .definition (.block ⟨_, List.mem_singleton_self _, .here rfl⟩) hshift
      (.inl ⟨_, List.mem_singleton_self _, .here rfl⟩)
  refine ⟨out, hout, htext, hframes, ?_, ?_⟩
  · have hblock : ∀ x ∈ ["x", "w", "y"], ∃ s ∈ ss, x ∈ s.reads := by
      simp [ss, Statement.mem_reads, Expr.identifiers]
    have hglobal : "g" ∈ scale.globals := Std.ExtTreeSet.mem_iff_contains.2 (by decide +kernel)
    change ∀ x ∈ ["x", "w", "y"] ++ ["g"], _
    rw [List.forall_mem_append, List.forall_mem_singleton]
    constructor
    · intro x hx
      exact (hreads x (by revert x; decide)).2 (.inl (hblock x hx))
    · exact (hreads "g" (by decide)).2 (.inr ⟨"scale", 1, scale, hreached, hscale, hglobal⟩)
  · have hunknown : "exp" ∉ Table.ofDefinitions [scale, shift] := by decide +kernel
    have hcalled : scale.HasCall "exp" 1 :=
      .inr ⟨_, rfl, .operand List.mem_cons_self (.here rfl)⟩
    exact (hcalls "exp").2 ⟨hunknown, 1, .definition hreached hscale hcalled⟩

end Formulae
