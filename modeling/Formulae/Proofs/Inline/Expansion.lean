import Formulae.Proofs.Inline.Fresh
import Formulae.Proofs.Outcome

namespace Formulae.Inline
open Outcome
set_option autoImplicit true

variable {known : Table Definition}

/-- The expansions of expressions one after the other, each of which has a property. -/
inductive Chain (known : Table Definition) (P : Counters → Expr → Expansion Expr → Prop) :
    Counters → List Expr → Expansion (List Expr) → Prop
  | nil : Chain known P c [] ⟨[], [], c⟩
  | cons : expandExpr known c e = .ok a → P c e a → Chain known P a.counters es b →
      Chain known P c (e :: es) ⟨a.before ++ b.before, a.value :: b.value, b.counters⟩

theorem Chain.single (ha : expandExpr known c e = .ok a) (hP : P c e a) :
    Chain known P c [e] ⟨a.before, [a.value], a.counters⟩ := by
  simpa using Chain.cons ha hP .nil

theorem Chain.length (h : Chain known P c es b) : b.value.length = es.length := by
  induction h with
  | nil => rfl
  | cons _ _ _ ih => exact congrArg Nat.succ ih

theorem Chain.imp (h : Chain known P c es b)
    (hPQ : ∀ {c e a}, expandExpr known c e = .ok a → P c e a → Q c e a) :
    Chain known Q c es b := by
  induction h with
  | nil => exact .nil
  | cons ha hP _ ih => exact .cons ha (hPQ ha hP) ih

theorem expandList_chain {es : List Expr}
    (hP : ∀ e ∈ es, ∀ {c a}, expandExpr known c e = .ok a → P c e a)
    (h : expandList known c es = .ok b) : Chain known P c es b := by
  induction es generalizing c b with
  | nil =>
    cases h
    exact .nil
  | cons e es ih =>
    rw [List.forall_mem_cons] at hP
    obtain ⟨a, ha, h⟩ := bind_eq_ok.1 h
    obtain ⟨b', hb, h⟩ := bind_eq_ok.1 h
    cases h
    exact .cons ha (hP.1 ha) (ih hP.2 hb)

theorem expandRest_chain {rest : List (CmpOp × Expr)}
    (hP : ∀ x ∈ rest, ∀ {c a}, expandExpr known c x.2 = .ok a → P c x.2 a)
    (h : expandRest known c rest = .ok b) : ∃ values,
      Chain known P c (rest.map Prod.snd) ⟨b.before, values, b.counters⟩ ∧
      b.value = (rest.map Prod.fst).zip values := by
  induction rest generalizing c b with
  | nil =>
    cases h
    exact ⟨[], .nil, rfl⟩
  | cons x rest ih =>
    rw [List.forall_mem_cons] at hP
    obtain ⟨a, ha, h⟩ := bind_eq_ok.1 h
    obtain ⟨b', hb, h⟩ := bind_eq_ok.1 h
    cases h
    obtain ⟨values, hchain, hvalues⟩ := ih hP.2 hb
    exact ⟨a.value :: values, .cons ha (hP.1 ha) hchain, by simp [hvalues]⟩

/-- What passes from the operands to a node, and to a call of a known function, holds of every
expansion. -/
theorem expandExpr_induct {P : Counters → Expr → Expansion Expr → Prop}
    (node : ∀ {c e b}, (∀ f, e.callee? = some f → known[f]? = none) →
      Chain known P c e.operands b → P c e ⟨b.before, e.withOperands b.value, b.counters⟩)
    (call : ∀ {c f args sp d b r}, known[f]? = some d → Chain known P c args b →
      expandCall d b.value sp b.counters = .ok r →
      P c (.call f args sp) { r with before := b.before ++ r.before })
    (h : expandExpr known c e = .ok a) : P c e a := by
  have hnode (e : Expr) {c b} (he : e.callee? = none) (hb : Chain known P c e.operands b) :
      P c e ⟨b.before, e.withOperands b.value, b.counters⟩ :=
    node (fun f hf => by rw [he] at hf; cases hf) hb
  induction e using Expr.induct generalizing c a with
  | number s x sp =>
    cases h
    exact hnode (.number s x sp) rfl .nil
  | bool v sp =>
    cases h
    exact hnode (.bool v sp) rfl .nil
  | var x sp =>
    cases h
    exact hnode (.var x sp) rfl .nil
  | call f args sp ih =>
    obtain ⟨b, hb, h⟩ := bind_eq_ok.1 h
    have hchain := expandList_chain (fun e he _ _ => ih e he) hb
    split at h
    · next hf =>
      cases h
      apply node _ hchain
      rintro _ ⟨⟩
      exact hf
    · next d hd =>
      obtain ⟨r, hr, h⟩ := bind_eq_ok.1 h
      cases h
      exact call hd hchain hr
  | unary op e sp ih =>
    obtain ⟨a', ha, h⟩ := bind_eq_ok.1 h
    cases h
    exact hnode (.unary op e sp) rfl (.single ha (ih ha))
  | binary op l r sp ihl ihr =>
    obtain ⟨a', ha, h⟩ := bind_eq_ok.1 h
    obtain ⟨b', hb, h⟩ := bind_eq_ok.1 h
    cases h
    exact hnode (.binary op l r sp) rfl (.cons ha (ihl ha) (.single hb (ihr hb)))
  | compare e rest sp ihe ihr =>
    obtain ⟨a', ha, h⟩ := bind_eq_ok.1 h
    obtain ⟨b', hb, h⟩ := bind_eq_ok.1 h
    cases h
    obtain ⟨values, hchain, hvalues⟩ := expandRest_chain (fun x hx _ _ => ihr x hx) hb
    rw [hvalues]
    exact hnode (.compare e rest sp) rfl (.cons ha (ihe ha) hchain)
  | logical op es sp ih =>
    obtain ⟨b, hb, h⟩ := bind_eq_ok.1 h
    cases h
    exact hnode (.logical op es sp) rfl (expandList_chain (fun e he _ _ => ih e he) hb)

/-- The statements that assign the arguments to the parameters. -/
def passing (names : Table String) (params : List String) (args : List Expr) : List Statement :=
  params.zipWith (fun x e => ⟨names.getD x x, .set, e⟩) args

theorem expandCall_eq_ok (h : expandCall d args sp c = .ok r) :
    args.length = d.params.length ∧ c.getD d.name 0 < greatestNumber ∧ ∃ e, d.result = some e ∧
      r = ⟨passing (newNames d (c.getD d.name 0)) d.params args ++
          d.body.map (Statement.renamed (newNames d (c.getD d.name 0))),
        e.rename (newNames d (c.getD d.name 0)), c.insert d.name (c.getD d.name 0 + 1)⟩ := by
  unfold expandCall at h
  split at h
  · cases h
  · next hlen =>
    split at h
    · cases h
    · next e he =>
      dsimp only at h
      split at h
      · next hrange =>
        cases h
        exact ⟨not_not.1 hlen, hrange, e, he, rfl⟩
      · cases h

theorem mem_passing {names : Table String} {params : List String} {args : List Expr}
    (h : s ∈ passing names params args) :
    ∃ x ∈ params, ∃ e ∈ args, s = ⟨names.getD x x, .set, e⟩ := by
  induction params generalizing args with
  | nil => cases h
  | cons x params ih =>
    cases args with
    | nil => cases h
    | cons e args =>
      rcases List.mem_cons.1 h with rfl | h
      · exact ⟨x, List.mem_cons_self, e, List.mem_cons_self, rfl⟩
      · obtain ⟨y, hy, e', he', rfl⟩ := ih h
        exact ⟨y, List.mem_cons_of_mem _ hy, e', List.mem_cons_of_mem _ he', rfl⟩

/-- Statements that are added between two counts assign to names that are fresh at the first. -/
structure Counted (c : Counters) (before : List Statement) (c' : Counters) : Prop where
  later : Fresh c' x → Fresh c x
  targets : s ∈ before → Fresh c s.target

theorem Counted.nil (c : Counters) : Counted c [] c := ⟨id, nofun⟩

theorem Counted.append (h : Counted c before c') (h' : Counted c' more c'') :
    Counted c (before ++ more) c'' where
  later hx := h.later (h'.later hx)
  targets hs := (List.mem_append.1 hs).elim h.targets fun hs => h.later (h'.targets hs)

theorem counted_expandCall (hname : '_' ∉ d.name.toList) (h : expandCall d args sp c = .ok r) :
    Counted c r.before r.counters := by
  obtain ⟨-, -, e, -, rfl⟩ := expandCall_eq_ok h
  have hfresh (x : String) (hx : x ∈ d.ownNames) :
      Fresh c ((newNames d (c.getD d.name 0)).getD x x) := by
    rw [getD_newNames, if_pos hx]
    exact fresh_newName hname x
  constructor
  · exact Fresh.of_insert
  · intro s hs
    rcases List.mem_append.1 hs with hs | hs
    · obtain ⟨x, hx, e', -, rfl⟩ := mem_passing hs
      exact hfresh x (Definition.mem_ownNames.2 (.inl hx))
    · obtain ⟨s', hs', rfl⟩ := List.mem_map.1 hs
      exact hfresh s'.target (Definition.mem_ownNames.2 (.inr ⟨s', hs', rfl⟩))

theorem Chain.counted (h : Chain known (fun c _ a => Counted c a.before a.counters) c es b) :
    Counted c b.before b.counters := by
  induction h with
  | nil => exact .nil _
  | cons _ ha _ ih => exact ha.append ih

theorem Inlinable.counted (hds : Inlinable ds)
    (h : expandExpr (Table.ofDefinitions ds) c e = .ok a) : Counted c a.before a.counters := by
  apply expandExpr_induct (P := fun c _ a => Counted c a.before a.counters) _ _ h
  · intro c e b _ hb
    exact hb.counted
  · intro c f args sp d b r hd hb hr
    exact hb.counted.append (counted_expandCall
      (hds.plain (Table.getElem?_ofDefinitions hd).1) hr)

theorem Inlinable.chain_counted (hds : Inlinable ds)
    (h : Chain (Table.ofDefinitions ds) P c es b) : Counted c b.before b.counters :=
  (h.imp fun ha _ => hds.counted ha).counted

theorem mem_namesOf_append {ss ss' : List Statement} :
    x ∈ namesOf (ss ++ ss') ↔ x ∈ namesOf ss ∨ x ∈ namesOf ss' := by
  simp only [mem_namesOf, exists_mem_append]

/-- The names that an inlined call adds are those of its arguments and the renamed ones of the
definition. -/
theorem mem_names_expandCall (h : expandCall d args sp c = .ok r)
    (hx : x ∈ r.value.identifiers ∨ x ∈ namesOf r.before) :
    (∃ e ∈ args, x ∈ e.identifiers) ∨
      ∃ y ∈ allNames d, (newNames d (c.getD d.name 0)).getD y y = x := by
  obtain ⟨-, -, e, hresult, rfl⟩ := expandCall_eq_ok h
  rw [mem_namesOf_append] at hx
  rcases hx with hx | hx | hx
  · obtain ⟨y, hy, rfl⟩ := Expr.mem_identifiers_rename.1 hx
    refine .inr ⟨y, ?_, rfl⟩
    simp [allNames, Definition.resultReads, hresult, hy]
  · obtain ⟨s, hs, hx⟩ := mem_namesOf.1 hx
    obtain ⟨y, hy, e', he', rfl⟩ := mem_passing hs
    rcases hx with hx | rfl
    · exact .inl ⟨e', he', hx⟩
    · exact .inr ⟨y, by simp [allNames, hy], rfl⟩
  · obtain ⟨s, hs, hx⟩ := mem_namesOf.1 hx
    obtain ⟨s', hs', rfl⟩ := List.mem_map.1 hs
    have hbody {y : String} (hy : y ∈ s'.value.identifiers ∨ s'.target = y) :
        y ∈ allNames d := by
      rw [allNames, mem_union_iff, mem_union_iff, mem_namesOf]
      exact .inl (.inr ⟨s', hs', hy⟩)
    rcases hx with hx | rfl
    · obtain ⟨y, hy, rfl⟩ := Expr.mem_identifiers_rename.1 hx
      exact .inr ⟨y, hbody (.inl hy), rfl⟩
    · exact .inr ⟨s'.target, hbody (.inr rfl), rfl⟩

/-- No name that is in use after an expansion may still be given by a later call. -/
def Settles (c : Counters) (e : Expr) (a : Expansion Expr) : Prop :=
  (∀ x ∈ e.identifiers, ¬Fresh c x) →
    ∀ x, x ∈ a.value.identifiers ∨ x ∈ namesOf a.before → ¬Fresh a.counters x

theorem Chain.settles (hds : Inlinable ds) (h : Chain (Table.ofDefinitions ds) Settles c es b)
    (hes : ∀ e ∈ es, ∀ x ∈ e.identifiers, ¬Fresh c x) :
    ∀ x, (∃ e ∈ b.value, x ∈ e.identifiers) ∨ x ∈ namesOf b.before → ¬Fresh b.counters x := by
  induction h with
  | nil => simp [mem_namesOf]
  | @cons c e a es b ha hP hb ih =>
    rw [List.forall_mem_cons] at hes
    have hfirst := hP hes.1
    have hrest := ih fun e he x hx hfresh => hes.2 e he x hx ((hds.counted ha).later hfresh)
    intro x hx hfresh
    rw [exists_mem_cons, mem_namesOf_append] at hx
    have hx' : (x ∈ a.value.identifiers ∨ x ∈ namesOf a.before) ∨
        (∃ e ∈ b.value, x ∈ e.identifiers) ∨ x ∈ namesOf b.before := by
      grind
    rcases hx' with hx | hx
    · exact hfirst x hx ((hds.chain_counted hb).later hfresh)
    · exact hrest x hx hfresh

theorem not_fresh_renamed (hds : Inlinable ds) (hd : d ∈ ds) {c : Counters}
    (hx : x ∈ allNames d) :
    ¬Fresh (c.insert d.name (c.getD d.name 0 + 1))
      ((newNames d (c.getD d.name 0)).getD x x) := by
  rw [getD_newNames]
  split
  · exact not_fresh_newName (hds.plain hd) x
  · exact fun hfresh => hds.unreserved hd hx hfresh.reserved

theorem Inlinable.settles (hds : Inlinable ds)
    (h : expandExpr (Table.ofDefinitions ds) c e = .ok a) : Settles c e a := by
  apply expandExpr_induct (P := Settles) _ _ h
  · intro c e b _ hb he x hx
    have hoperands := hb.settles hds fun e' he' y hy =>
      he y (Expr.mem_identifiers.2 (.inr ⟨e', he', hy⟩))
    rcases hx with hx | hx
    · rw [Expr.mem_identifiers, Expr.ident?_withOperands,
        Expr.operands_withOperands hb.length] at hx
      rcases hx with hx | hx
      · intro hfresh
        exact he x (Expr.mem_identifiers.2 (.inl hx)) ((hds.chain_counted hb).later hfresh)
      · exact hoperands x (.inl hx)
    · exact hoperands x (.inr hx)
  · intro c f args sp d b r hd hb hr he x hx
    obtain ⟨hmem, rfl⟩ := Table.getElem?_ofDefinitions hd
    have hargs := hb.settles hds fun e' he' y hy =>
      he y (Expr.mem_identifiers.2 (.inr ⟨e', he', hy⟩))
    have hcounters : r.counters = b.counters.insert d.name (b.counters.getD d.name 0 + 1) := by
      obtain ⟨-, -, e, -, rfl⟩ := expandCall_eq_ok hr
      rfl
    have hold (hx : (∃ e ∈ b.value, x ∈ e.identifiers) ∨ x ∈ namesOf b.before) :
        ¬Fresh r.counters x := by
      rw [hcounters]
      exact fun hfresh => hargs x hx hfresh.of_insert
    rw [mem_namesOf_append, or_left_comm] at hx
    rcases hx with hx | hx
    · exact hold (.inr hx)
    · rcases mem_names_expandCall hr hx with hx | ⟨y, hy, rfl⟩
      · exact hold (.inl hx)
      · rw [hcounters]
        exact not_fresh_renamed hds hmem hy

end Formulae.Inline
