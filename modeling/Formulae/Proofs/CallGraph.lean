import Formulae.Definition
import Formulae.Proofs.Outcome
import Mathlib.Data.List.Chain
import Mathlib.Data.List.Perm.Subperm
import Mathlib.Logic.Relation

namespace Formulae.CallGraph
open Outcome
set_option autoImplicit true

variable {g : CallGraph} {known : Table Definition}

/-- Is there a call of the second function in the first? -/
def Edge (g : CallGraph) (f x : String) : Prop := ∃ callees, g[f]? = some callees ∧ x ∈ callees

/-- Does every path of calls from the function come to an end? -/
def Ends (g : CallGraph) (f : String) : Prop := Acc (fun x f => g.Edge f x) f

theorem ends_of_not_mem (h : f ∉ g) : g.Ends f := by
  constructor
  rintro x ⟨callees, hf, -⟩
  exact absurd (Table.mem_iff_getElem?.2 ⟨callees, hf⟩) h

theorem ends_of_callees (hf : g[f]? = some callees) (h : ∀ x ∈ callees, g.Ends x) : g.Ends f := by
  constructor
  rintro x ⟨callees', hf', hx⟩
  cases hf.symm.trans hf'
  exact h x hx

theorem Ends.not_cyclic (h : g.Ends f) : ¬Relation.TransGen g.Edge f f := by
  induction h with
  | intro f _ ih =>
    intro hcycle
    obtain ⟨x, hcall, hback⟩ := Relation.TransGen.head'_iff.1 hcycle
    exact ih x hcall (.tail' hback hcall)

theorem length_le_size {fs : List String} {t : Table α} (hfs : fs.Nodup) (h : ∀ f ∈ fs, f ∈ t) :
    fs.length ≤ t.size := by
  have hsub : fs ⊆ t.keys := fun f hf => Std.ExtTreeMap.mem_keys.2 (h f hf)
  rw [← Std.ExtTreeMap.length_keys]
  exact (hfs.subperm hsub).length_le

/-- What is on the stack of a visit, and how much deeper it may go. -/
structure Stacked (g : CallGraph) (depth : Nat) (stack : List String) : Prop where
  nodup : stack.Nodup
  known : ∀ x ∈ stack, x ∈ g
  room : g.size ≤ depth + stack.length

namespace Stacked

theorem nodup_push (h : Stacked g depth stack) (hf : f ∉ stack) : (stack ++ [f]).Nodup := by
  rw [List.nodup_append]
  refine ⟨h.nodup, List.pairwise_singleton _ f, ?_⟩
  rintro x hx _ hf' rfl
  exact hf (List.mem_singleton.1 hf' ▸ hx)

theorem known_push (h : Stacked g depth stack) (hf : f ∈ g) : ∀ x ∈ stack ++ [f], x ∈ g := by
  simp only [List.mem_append, List.mem_singleton]
  rintro x (hx | rfl)
  · exact h.known x hx
  · exact hf

theorem push (h : Stacked g (depth + 1) stack) (hf : f ∈ g) (hnew : f ∉ stack) :
    Stacked g depth (stack ++ [f]) where
  nodup := h.nodup_push hnew
  known := h.known_push hf
  room := by
    have := h.room
    rw [List.length_append, List.length_singleton]
    omega

/-- When the depth has run out, all functions are on the stack. -/
theorem mem_of_depth_zero (h : Stacked g 0 stack) (hf : f ∈ g) : f ∈ stack := by
  by_contra hnew
  have hle := length_le_size (h.nodup_push hnew) (h.known_push hf)
  have hroom := h.room
  rw [List.length_append, List.length_singleton] at hle
  omega

theorem nil (g : CallGraph) : Stacked g g.size [] :=
  ⟨List.nodup_nil, fun _ hx => absurd hx List.not_mem_nil, Nat.le_refl _⟩

end Stacked

/-- From all that was done paths of calls end, nothing done is forgotten, and the functions that
were to be visited are done. -/
structure Visited (g : CallGraph) (done : Names) (fs : List String) (done' : Names) : Prop where
  ends : ∀ x ∈ done', g.Ends x
  keeps : ∀ x ∈ done, x ∈ done'
  visits : ∀ f ∈ fs, f ∈ g → f ∈ done'

theorem Visited.cons (h : Visited g done [f] done') (h' : Visited g done' fs done'') :
    Visited g done (f :: fs) done'' where
  ends := h'.ends
  keeps x hx := h'.keeps x (h.keeps x hx)
  visits := by
    rw [List.forall_mem_cons]
    exact ⟨fun hf => h'.keeps f (h.visits f List.mem_cons_self hf), h'.visits⟩

theorem visited_foldlM {visit : Names → String → Except (List String) Names}
    (hvisit : ∀ {done f done'}, (∀ x ∈ done, g.Ends x) → visit done f = .ok done' →
      Visited g done [f] done')
    (hdone : ∀ x ∈ done, g.Ends x) (h : fs.foldlM visit done = .ok done') :
    Visited g done fs done' := by
  induction fs generalizing done with
  | nil =>
    cases h
    exact ⟨hdone, fun _ hx => hx, fun _ hf => absurd hf List.not_mem_nil⟩
  | cons f fs ih =>
    rw [List.foldlM_cons] at h
    obtain ⟨after, hfirst, h⟩ := bind_eq_ok.1 h
    have hfirst := hvisit hdone hfirst
    exact hfirst.cons (ih hfirst.ends h)

/-- All that a visit can come to: nothing, for a function that is done, not known or too deep; a
path that is closed; or a visit of all callees. -/
theorem visit_cases (h : g.visit depth stack done f = r) :
    (r = .ok done ∧ (f ∈ done ∨ f ∉ stack ∧ (depth = 0 ∨ f ∉ g))) ∨
    (r = .error (stack ++ [f]) ∧ f ∈ stack) ∨
    ∃ n callees, depth = n + 1 ∧ g[f]? = some callees ∧ f ∉ stack ∧
      (callees.toList.foldlM (g.visit n (stack ++ [f])) done >>= fun done' =>
        .ok (done'.insert f)) = r := by
  unfold visit at h
  split at h
  · next hf => exact .inl ⟨h.symm, .inl hf⟩
  · split at h
    · next hf => exact .inr (.inl ⟨h.symm, hf⟩)
    · next hnew =>
      cases depth with
      | zero => exact .inl ⟨h.symm, .inr ⟨hnew, .inl rfl⟩⟩
      | succ n =>
        cases hcallees : g[f]? with
        | none =>
          rw [hcallees] at h
          refine .inl ⟨h.symm, .inr ⟨hnew, .inr fun hf => ?_⟩⟩
          obtain ⟨callees, hf⟩ := Table.mem_iff_getElem?.1 hf
          cases hcallees.symm.trans hf
        | some callees =>
          rw [hcallees] at h
          exact .inr (.inr ⟨n, callees, rfl, rfl, hnew, h⟩)

/-- A visit that finds no cycle leaves only functions behind from which paths of calls end. -/
theorem visited_visit (hstack : Stacked g depth stack) (hdone : ∀ x ∈ done, g.Ends x)
    (h : g.visit depth stack done f = .ok done') : Visited g done [f] done' := by
  induction depth using Nat.strongRecOn generalizing stack done f done' with
  | _ depth ih =>
    rcases visit_cases h with ⟨hsame, hf⟩ | ⟨herror, -⟩ | ⟨n, callees, rfl, hf, hnew, hcallees⟩
    · cases hsame
      refine ⟨hdone, fun _ hx => hx, ?_⟩
      rintro x hx hknown
      obtain rfl := List.mem_singleton.1 hx
      rcases hf with hf | ⟨hnew, rfl | hunknown⟩
      · exact hf
      · exact absurd (hstack.mem_of_depth_zero hknown) hnew
      · exact absurd hknown hunknown
    · cases herror
    · obtain ⟨after, hfold, hafter⟩ := bind_eq_ok.1 hcallees
      cases hafter
      have hpush := hstack.push (Table.mem_iff_getElem?.2 ⟨callees, hf⟩) hnew
      have hvisited := visited_foldlM (ih n (Nat.lt_succ_self n) hpush) hdone hfold
      have hends : g.Ends f := by
        refine ends_of_callees hf fun x hx => ?_
        by_cases hknown : x ∈ g
        · exact hvisited.ends x (hvisited.visits x (Std.ExtTreeSet.mem_toList.2 hx) hknown)
        · exact ends_of_not_mem hknown
      refine ⟨?_, fun x hx => mem_insert_iff.2 (.inr (hvisited.keeps x hx)), ?_⟩
      · intro x hx
        rcases mem_insert_iff.1 hx with rfl | hx
        · exact hends
        · exact hvisited.ends x hx
      · exact fun x hx _ => mem_insert_iff.2 (.inl (List.mem_singleton.1 hx).symm)

/-- A path of calls that ends where it has been before. -/
def Closed (g : CallGraph) (path : List String) : Prop :=
  ∃ before f, path = before ++ [f] ∧ f ∈ before ∧ path.IsChain g.Edge

theorem Closed.cyclic (h : g.Closed path) : ∃ f, Relation.TransGen g.Edge f f := by
  obtain ⟨before, f, rfl, hf, hchain⟩ := h
  have hpairs := (hchain.imp fun _ _ => Relation.TransGen.single).pairwise
  exact ⟨f, (List.pairwise_append.1 hpairs).2.2 f hf f List.mem_cons_self⟩

theorem exists_of_foldlM_eq_error {visit : β → α → Except ε β} {as : List α}
    (h : as.foldlM visit b = .error e) : ∃ a ∈ as, ∃ b', visit b' a = .error e := by
  induction as generalizing b with
  | nil => cases h
  | cons a as ih =>
    rw [List.foldlM_cons] at h
    rcases bind_eq_error.1 h with h | ⟨b', -, h⟩
    · exact ⟨a, List.mem_cons_self, b, h⟩
    · obtain ⟨a', ha', h'⟩ := ih h
      exact ⟨a', List.mem_cons_of_mem a ha', h'⟩

theorem closed_visit (hchain : (stack ++ [f]).IsChain g.Edge)
    (h : g.visit depth stack done f = .error path) : g.Closed path := by
  induction depth using Nat.strongRecOn generalizing stack done f with
  | _ depth ih =>
    rcases visit_cases h with ⟨hsame, -⟩ | ⟨herror, hf⟩ | ⟨n, callees, rfl, hf, -, hcallees⟩
    · cases hsame
    · cases herror
      exact ⟨stack, f, rfl, hf, hchain⟩
    · rcases bind_eq_error.1 hcallees with hfold | ⟨_, _, hok⟩
      · obtain ⟨x, hx, done', hx'⟩ := exists_of_foldlM_eq_error hfold
        have hcall : g.Edge f x := ⟨callees, hf, Std.ExtTreeSet.mem_toList.1 hx⟩
        refine ih n (Nat.lt_succ_self n) ?_ hx'
        rw [List.append_assoc]
        exact List.isChain_split.2 ⟨hchain, .cons_cons hcall (.singleton x)⟩
      · cases hok

/-- In whatever order all functions are visited, the search finds a cycle exactly if there is one. -/
theorem search_eq_ok_iff {roots : List String} (hroots : ∀ f ∈ g, f ∈ roots) :
    (∃ done, g.search roots = .ok done) ↔ ∀ f, ¬Relation.TransGen g.Edge f f := by
  constructor
  · rintro ⟨done, h⟩ f hcycle
    have hvisited := visited_foldlM (visited_visit (.nil g))
      (fun _ hx => absurd hx Std.ExtTreeSet.not_mem_empty) h
    obtain ⟨x, ⟨callees, hf, -⟩, -⟩ := Relation.TransGen.head'_iff.1 hcycle
    have hknown := Table.mem_iff_getElem?.2 ⟨callees, hf⟩
    exact (hvisited.ends f (hvisited.visits f (hroots f hknown) hknown)).not_cyclic hcycle
  · intro hacyclic
    cases h : g.search roots with
    | ok done => exact ⟨done, rfl⟩
    | error path =>
      obtain ⟨f, -, done, hf⟩ := exists_of_foldlM_eq_error h
      obtain ⟨x, hcycle⟩ := (closed_visit (.singleton f) hf).cyclic
      exact absurd hcycle (hacyclic x)

/-- Does the body or the result of a known function call a known function? -/
def Calls (known : Table Definition) (f g : String) : Prop :=
  ∃ d, known[f]? = some d ∧ g ∈ d.calls ∧ g ∈ known

theorem Calls.mem {f g : String} (h : Calls known f g) : f ∈ known ∧ g ∈ known := by
  obtain ⟨d, hd, -, hg⟩ := h
  exact ⟨Table.mem_iff_getElem?.2 ⟨d, hd⟩, hg⟩

theorem edge_ofDefinitions : (ofDefinitions known).Edge = Calls known := by
  funext f g
  rw [Edge, ofDefinitions, Std.ExtTreeMap.getElem?_map, Calls]
  cases known[f]? with
  | none => simp
  | some d => simp

theorem cycle?_eq_none_iff_acyclic :
    (ofDefinitions known).cycle? = none ↔ ∀ f, ¬Relation.TransGen (Calls known) f f := by
  rw [← edge_ofDefinitions, ← search_eq_ok_iff fun f => Std.ExtTreeMap.mem_keys.2, cycle?]
  split
  · next done hdone => exact iff_of_true rfl ⟨done, hdone⟩
  · next path hpath => simp [hpath]

/-- Are all calls of known functions, from the function on, over after so many rounds? -/
def SettledAfter (known : Table Definition) : (rounds : Nat) → (f : String) → Prop
  | 0, _ => False
  | rounds + 1, f => f ∈ known ∧ ∀ g, Calls known f g → SettledAfter known rounds g

/-- What a settled function calls has been settled in the round before. -/
theorem SettledAfter.of_calls (hf : SettledAfter known (rounds + 1) f)
    (hd : known[f]? = some d) (hcalls : x ∈ d.calls) (hx : x ∈ known) :
    SettledAfter known rounds x :=
  hf.2 x ⟨d, hd, hcalls, hx⟩

/-- From a function that is not settled on, as many calls follow one another as there have been
rounds. -/
theorem exists_chain_of_unsettled (hf : f ∈ known) (h : ¬SettledAfter known rounds f) :
    ∃ fs : List String, fs.length = rounds ∧ (∀ g ∈ fs, g ∈ known) ∧
      (f :: fs).IsChain (Calls known) := by
  induction rounds generalizing f with
  | zero => exact ⟨[], rfl, by simp, .singleton f⟩
  | succ rounds ih =>
    rw [SettledAfter, not_and] at h
    obtain ⟨g, hg⟩ := not_forall.1 (h hf)
    obtain ⟨hcall, hunsettled⟩ := Classical.not_imp.1 hg
    obtain ⟨fs, hlen, hknown, hchain⟩ := ih hcall.mem.2 hunsettled
    refine ⟨g :: fs, congrArg Nat.succ hlen, ?_, .cons_cons hcall hchain⟩
    rw [List.forall_mem_cons]
    exact ⟨hcall.mem.2, hknown⟩

theorem nodup_of_chain {fs : List String} (hacyclic : ∀ f, ¬Relation.TransGen (Calls known) f f)
    (h : fs.IsChain (Calls known)) : fs.Nodup := by
  have hpairs := (h.imp fun _ _ => Relation.TransGen.single).pairwise
  apply hpairs.imp
  rintro f _ hpath rfl
  exact hacyclic f hpath

/-- Without recursion all functions are settled after as many rounds as there are functions, because
no path of calls leads through more of them. -/
theorem settledAfter_size (hacyclic : ∀ f, ¬Relation.TransGen (Calls known) f f) (hf : f ∈ known) :
    SettledAfter known known.size f := by
  by_contra hunsettled
  obtain ⟨fs, hlen, hknown, hchain⟩ := exists_chain_of_unsettled hf hunsettled
  have hle := length_le_size (nodup_of_chain hacyclic hchain)
    (List.forall_mem_cons.2 ⟨hf, hknown⟩)
  rw [List.length_cons, hlen] at hle
  omega

end Formulae.CallGraph
