/-
Further facts.

Facts that are added to the initial state, wherever they are put, never hurt.  Every grounding
in a state is a grounding in a state that has further facts among its own.  When the same move
is made in both, the facts that are left of the one are again among those that are left of the
other: taking out the first fact that says the same may take out different copies, but the one
never loses a fact that the other keeps (`exists_remove?_of_sublist`).  So the search tree is
embedded, level by level, in that of the problem with further facts, and where goals are
reached in the one they are reached in the other.

The main result is `search_of_sublist`.
-/
import ClassicalPlanning.Proofs.Matching.Selection
import ClassicalPlanning.Proofs.Search.Coherence
import ClassicalPlanning.Proofs.Search.Decision

namespace ClassicalPlanning

/-! ## States -/

namespace State

variable {s t rest : State} {l : Literal} {ms : List Literal}

lemma exists_remove?_of_sublist (h : s.Sublist t) (hrest : s.remove? l = some rest) :
    ∃ rest', t.remove? l = some rest' ∧ rest.Sublist rest' := by
  induction h generalizing rest with
  | slnil => simp [remove?] at hrest
  | @cons s t m hsub ih =>
    by_cases hm : m ≈ l
    -- The further fact is taken out, and the state loses nothing of what `s` has.
    · refine ⟨t, by rw [remove?, if_pos hm], ?_⟩
      exact (remove?_eq_some hrest).2.trans hsub
    · obtain ⟨rest', hrest', hsub'⟩ := ih hrest
      refine ⟨m :: rest', by rw [remove?, if_neg hm, hrest', Option.map_some], ?_⟩
      exact hsub'.cons m
  | @cons_cons s t m hsub ih =>
    by_cases hm : m ≈ l
    · rw [remove?, if_pos hm, Option.some.injEq] at hrest
      exact ⟨t, by rw [remove?, if_pos hm], hrest ▸ hsub⟩
    · rw [remove?, if_neg hm, Option.map_eq_some_iff] at hrest
      obtain ⟨others, hothers, rfl⟩ := hrest
      obtain ⟨rest', hrest', hsub'⟩ := ih hothers
      refine ⟨m :: rest', by rw [remove?, if_neg hm, hrest', Option.map_some], ?_⟩
      exact hsub'.cons_cons m

lemma exists_removeAll_of_sublist (h : s.Sublist t) (hrest : s.removeAll ms = .ok rest) :
    ∃ rest', t.removeAll ms = .ok rest' ∧ rest.Sublist rest' := by
  induction ms generalizing s t with
  | nil =>
    obtain rfl : s = rest := by simpa [removeAll] using hrest
    exact ⟨t, rfl, h⟩
  | cons m ms ih =>
    rw [removeAll] at hrest
    cases hm : s.remove? m with
    | none => simp [hm] at hrest
    | some others =>
      rw [hm] at hrest
      obtain ⟨others', hothers', hsub⟩ := exists_remove?_of_sublist h hm
      obtain ⟨rest', hrest', hsub'⟩ := ih hsub hrest
      refine ⟨rest', ?_, hsub'⟩
      rw [removeAll, hothers']
      exact hrest'

lemma satisfies_of_sublist {goal : List Literal} (h : s.Sublist t) (hs : s.Satisfies goal) :
    t.Satisfies goal := by
  rw [satisfies_iff_subset] at hs ⊢
  exact List.Subset.trans hs (h.map _).subset

end State

lemma groundings_sublist (a : Action) {s t : State} (h : s.Sublist t) :
    (a.groundings s).Sublist (a.groundings t) := by
  rw [Action.groundings_eq_filterMap, Action.groundings_eq_filterMap]
  exact (combinations_sublist h _).filterMap _

/-! ## Trees -/

section Trees

variable {actions : List Action} {n n' : Node} {p q : Problem}

lemma exists_child_of_sublist (h : n.state.Sublist n'.state) {child : Node}
    (hchild : child ∈ n.children actions) :
    ∃ child' ∈ n'.children actions, child.state.Sublist child'.state := by
  obtain ⟨m, hm, next, hnext, rfl⟩ := mem_children.mp hchild
  obtain ⟨ha, hg⟩ := mem_moves_survey.mp hm
  obtain ⟨effects, state, heffects, hstate, rfl⟩ := apply_eq_ok_iff.mp hnext
  obtain ⟨rest, hrest, rfl⟩ := State.successor_eq_ok_iff.mp hstate
  -- The same move can be made at the other node, with the same effects.
  have hm' : m ∈ (n'.survey actions).moves :=
    mem_moves_survey.mpr ⟨ha, (groundings_sublist m.action h).subset hg⟩
  obtain ⟨rest', hrest', hsub⟩ := State.exists_removeAll_of_sublist h hrest
  have hstate' : n'.state.successor m.action.name m.grounding.matched effects
      = .ok (rest' ++ effects) := State.successor_eq_ok_iff.mpr ⟨rest', hrest', rfl⟩
  have hnext' := apply_eq_ok_iff.mpr ⟨effects, rest' ++ effects, heffects, hstate', rfl⟩
  refine ⟨_, mem_children.mpr ⟨m, hm', _, hnext', rfl⟩, ?_⟩
  exact hsub.append (List.Sublist.refl effects)

/-- Every node of a search tree has its like in the tree of a problem with further initial
facts, at the same level and with further facts. -/
lemma exists_node_of_sublist (hdomain : q.domain = p.domain) (h : p.state.Sublist q.state) :
    ∀ n, p.HasNode n → ∃ n', q.HasNode n' ∧ n'.level = n.level ∧ n.state.Sublist n'.state := by
  refine forall_hasNode ⟨q.root, hasNode_root q, rfl, h⟩ ?_
  rintro n hn ⟨n', hn', hlevel, hsub⟩ child hchild
  obtain ⟨child', hchild', hsub'⟩ := exists_child_of_sublist hsub hchild
  refine ⟨child', hasNode_of_mem_children hn' (hdomain ▸ hchild'), ?_, hsub'⟩
  rw [level_of_mem_children hchild, level_of_mem_children hchild', hlevel]

end Trees

/-! ## Searches -/

/-- With further facts in the state an action keeps its groundings, in their order.  If a
search without limits finds a goal node, a search of a coherent problem with further initial
facts finds one too, and not at a deeper level. -/
theorem search_of_sublist {p : Problem} {t : State} {limits : SearchLimits}
    (hlevel : limits.maxLevel = none) (hexpansions : limits.maxExpansions = none)
    (hcoherent : Problem.Coherent { p with state := t }) (hsub : p.state.Sublist t) :
    (∀ a : Action, (a.groundings p.state).Sublist (a.groundings t)) ∧
      ∀ d, p.FindsAt limits d → ∃ d' ≤ d, Problem.FindsAt { p with state := t } limits d' := by
  refine ⟨fun a => groundings_sublist a hsub, ?_⟩
  rintro d ⟨fuel, report, node, hsearch, hfound, rfl⟩
  obtain ⟨way, ⟨hway, hgoal⟩, -⟩ := isFirst_of_found hsearch hfound
  have hembedded := exists_node_of_sublist (p := p) (q := { p with state := t }) rfl hsub
  obtain ⟨node', hnode', hsame, hsub'⟩ := hembedded node ⟨way, hway⟩
  have hgoal' : node'.state.Satisfies p.goal := State.satisfies_of_sublist hsub' hgoal
  obtain ⟨d', hle, hfinds⟩ := exists_findsAt_of_hasNode hlevel hexpansions
    (faultless_of_hasNode hcoherent) hnode' hgoal'
  exact ⟨d', hsame ▸ hle, hfinds⟩

/-- On a line of three places the walker needs two steps to the last place, and no more when
there is a shortcut and when it is remembered that the walker left a place before. -/
theorem walk_search_of_sublist : ∃ t : State,
    t = (Walk.here (Walk.place "z")).negate :: Walk.link (Walk.place "a") (Walk.place "c") ::
      Walk.start ["a", "b", "c"] ∧
    (Walk.step.groundings (Walk.start ["a", "b", "c"])).Sublist (Walk.step.groundings t) ∧
    (Walk.problem ["a", "b", "c"] "c").FindsAt {} 2 ∧
    ∃ d ≤ 2, Problem.FindsAt { Walk.problem ["a", "b", "c"] "c" with state := t } {} d := by
  set t : State := (Walk.here (Walk.place "z")).negate ::
    Walk.link (Walk.place "a") (Walk.place "c") :: Walk.start ["a", "b", "c"] with ht
  have hwalk := Walk.coherent ["a", "b", "c"] "c"
  have hcoherent : Problem.Coherent { Walk.problem ["a", "b", "c"] "c" with state := t } := by
    refine ⟨fun l hl => ?_, hwalk.actions⟩
    rcases List.mem_cons.mp hl with rfl | hl
    · simpa [Walk.here, Literal.negate, Literal.WellTyped] using Walk.wellTyped_place "z"
    · rcases List.mem_cons.mp hl with rfl | hl
      · simpa [Walk.link, Literal.WellTyped] using
          And.intro (Walk.wellTyped_place "a") (Walk.wellTyped_place "c")
      · exact hwalk.wellTyped l hl
  have hsub : (Walk.start ["a", "b", "c"]).Sublist t :=
    ((List.Sublist.refl _).cons _).cons _
  have hfinds : (Walk.problem ["a", "b", "c"] "c").FindsAt {} 2 := ⟨3, _, _, rfl, rfl, rfl⟩
  obtain ⟨hgroundings, hsearch⟩ := @search_of_sublist (Walk.problem ["a", "b", "c"] "c") t {}
    rfl rfl hcoherent hsub
  exact ⟨t, ht, hgroundings Walk.step, hfinds, hsearch 2 hfinds⟩

end ClassicalPlanning
