/-
The order of the actions.

The actions of the domain are tried one after the other, so their order decides in which order the
children of a node come up, and that of the whole tier below.  But it does not decide which nodes
there are: the trees of two problems that differ in the order of the actions have the same tiers,
each in an order of its own (`Problem.Reordered.tier_offspring_perm`).

A search that ends at a goal node has found one of the least level.  A search that ends without one
has taken up all tiers that the level cap lets through, and the counts, the depth, and whether
something has been left out, do not hang on the order within a tier.  So if one of two such searches
ends, the other one ends alike.  This is the main result, `search_of_reordered`.
-/
import ClassicalPlanning.Proofs.Search.Coherence
import ClassicalPlanning.Proofs.Search.Decision
import ClassicalPlanning.Proofs.Search.Tally

namespace ClassicalPlanning

/-- The problems are the same, but for the order of the actions. -/
structure Problem.Reordered (p q : Problem) : Prop where
  state_eq : p.state = q.state
  goal_eq : p.goal = q.goal
  actions_perm : p.domain.actions.Perm q.domain.actions

/-- Two searches have ended alike, and without a fault: both with goal nodes of one level, or both
without one, for the same reason and with the same counts. -/
inductive Search.EndsAlike : Except Fault Search.Report → Except Fault Search.Report → Prop
  /-- Both have found a node. -/
  | found {n n' : Node} {stats stats' : Search.Stats} (hlevel : n.level = n'.level) :
      EndsAlike (.ok ⟨.found n, stats⟩) (.ok ⟨.found n', stats'⟩)
  /-- Neither has. -/
  | exhausted {e : Exhaustion} {stats : Search.Stats} :
      EndsAlike (.ok ⟨.exhausted e, stats⟩) (.ok ⟨.exhausted e, stats⟩)

open Search

variable {p q : Problem} {limits : SearchLimits} {n : Node}

/-! ## Trees -/

namespace Problem.Reordered

lemma symm (h : p.Reordered q) : q.Reordered p :=
  ⟨h.state_eq.symm, h.goal_eq.symm, h.actions_perm.symm⟩

variable (h : p.Reordered q)

include h

lemma root_eq : p.root = q.root := by
  simp only [Problem.root, Node.root, h.state_eq]

lemma moves_perm (n : Node) :
    (n.survey p.domain.actions).moves.Perm (n.survey q.domain.actions).moves :=
  (h.actions_perm.map _).flatMap_right _

lemma children_perm (n : Node) :
    (n.children p.domain.actions).Perm (n.children q.domain.actions) := by
  rw [children_eq_filterMap, children_eq_filterMap]
  exact (h.moves_perm n).filterMap _

lemma offspring_perm (limits : SearchLimits) (n : Node) :
    (p.offspring limits n).Perm (q.offspring limits n) := by
  unfold Problem.offspring
  split
  · exact .refl []
  · exact h.children_perm n

lemma tier_offspring_perm (limits : SearchLimits) (k : ℕ) :
    (tier (p.offspring limits) p.root k).Perm (tier (q.offspring limits) q.root k) :=
  h.root_eq ▸ tier_perm (h.offspring_perm limits) k

lemma tier_offspring_eq_nil {k : ℕ} (hnil : tier (p.offspring limits) p.root k = []) :
    tier (q.offspring limits) q.root k = [] :=
  List.perm_nil.mp (hnil ▸ (h.tier_offspring_perm limits k).symm)

lemma hasNode (hn : p.HasNode n) : q.HasNode n := by
  have hmem := mem_tier_children.mpr ⟨hn, rfl⟩
  have hperm : (tier (Node.children p.domain.actions) p.root n.level).Perm
      (tier (Node.children q.domain.actions) q.root n.level) :=
    h.root_eq ▸ tier_perm h.children_perm n.level
  exact (mem_tier_children.mp (hperm.mem_iff.mp hmem)).1

lemma faultless (hfaultless : ∀ n, p.HasNode n → n.Faultless p.domain.actions) :
    ∀ n, q.HasNode n → n.Faultless q.domain.actions := fun n hn m hm =>
  hfaultless n (h.symm.hasNode hn) m ((h.moves_perm n).mem_iff.mpr hm)

end Problem.Reordered

/-! ## Searches -/

section Searches

variable {fuel fuel' : ℕ} {report report' : Report} {e : Exhaustion}

/-- A node that is found is a node of some tier. -/
lemma exists_tier_of_found (h : p.search? limits fuel = some (.ok report))
    (hfound : report.outcome = .found n) :
    n.state.Satisfies p.goal ∧ ∃ d, n ∈ tier (p.offspring limits) p.root d := by
  obtain ⟨visited, s, rest, hafter, hfrontier, hgoal⟩ := exists_after_of_found h hfound
  obtain ⟨k, hk⟩ := hafter.traversed.exists_sweep
  obtain ⟨d, -, hd⟩ := mem_sweep.mp (hk.subset (by simp [hfrontier] : n ∈ _))
  exact ⟨hgoal, d, hd⟩

variable (hexpansions : limits.maxExpansions = none)

include hexpansions

/-- A search that finds nothing has taken up a tree that ends, and counted its nodes. -/
lemma exists_tallied_of_exhausted (h : p.search? limits fuel = some (.ok report))
    (hout : report.outcome = .exhausted e) :
    ∃ visited expanded s, After p limits visited s ∧ Tallied p limits visited expanded s ∧
      s.frontier.toList = [] ∧ e = (if s.limited then .limitReached else .noPlan) ∧
      report.stats = s.stats := by
  obtain ⟨before, s, hpassed, hdone, -⟩ := exists_passed_of_search? h
  have hturn : Turned p limits s (.done (.ok report)) := hdone ▸ turned_step p limits s
  refine ⟨_, _, s, hpassed.after.1, hpassed.tallied, ?_⟩
  cases hturn with
  | exhausted hempty => exact ⟨hempty, by simpa using hout.symm, rfl⟩
  | found => simp at hout
  | spent _ _ _ hspent => simp [SearchLimits.spent_eq_false hexpansions] at hspent

/-! ### Searches of problems that differ in the order of the actions -/

variable (h : p.Reordered q)

include h

lemma Problem.Reordered.terminates
    (hfaultless : ∀ n, p.HasNode n → n.Faultless p.domain.actions) (hends : p.Terminates limits) :
    q.Terminates limits := by
  obtain ⟨fuel, v, hv⟩ := hends
  obtain ⟨report, rfl⟩ := exists_report_of_faultless hfaultless hv
  cases hout : report.outcome with
  | found n =>
    obtain ⟨hgoal, d, hd⟩ := exists_tier_of_found hv hout
    have hmem := (h.tier_offspring_perm limits d).mem_iff.mp hd
    obtain ⟨v', hv'⟩ :=
      Option.ne_none_iff_exists'.mp (search?_ne_none_of_goal hmem (h.goal_eq ▸ hgoal))
    exact ⟨_, v', hv'⟩
  | exhausted e =>
    obtain ⟨visited, expanded, s, hafter, -, hempty, -⟩ :=
      exists_tallied_of_exhausted hexpansions hv hout
    obtain ⟨k, -, hend⟩ := (hempty ▸ hafter.traversed).exists_eq_sweep
    exact terminates_of_tier_eq_nil (k := k) fun j hj => h.tier_offspring_eq_nil (hend j hj)

/-- If one search finds a node, the other one does not miss it. -/
lemma Problem.Reordered.outcome_ne_exhausted (hp : p.search? limits fuel = some (.ok report))
    (hq : q.search? limits fuel' = some (.ok report')) (hfound : report.outcome = .found n) :
    report'.outcome ≠ .exhausted e := by
  intro hout
  obtain ⟨hgoal, d, hd⟩ := exists_tier_of_found hp hfound
  obtain ⟨visited, expanded, s, hafter, -, hempty, -⟩ :=
    exists_tallied_of_exhausted hexpansions hq hout
  have hvisited : n ∈ visited := (hempty ▸ hafter.traversed).mem_of_mem_tier
    ((h.tier_offspring_perm limits d).mem_iff.mp hd)
  exact hafter.goalless n hvisited (h.goal_eq ▸ hgoal)

omit hexpansions in
/-- Neither search finds a deeper node than the other. -/
lemma Problem.Reordered.level_le {n' : Node} (hp : p.search? limits fuel = some (.ok report))
    (hq : q.search? limits fuel' = some (.ok report')) (hfound : report.outcome = .found n)
    (hfound' : report'.outcome = .found n') : n.level ≤ n'.level := by
  obtain ⟨way, ⟨hway, hgoal⟩, -⟩ := isFirst_of_found hq hfound'
  exact level_le_of_isFirst (isFirst_of_found hp hfound) (h.symm.hasNode ⟨way, hway⟩)
    (h.goal_eq ▸ hgoal)

end Searches

/-! ## Searches that have taken up the same nodes -/

section Counts

variable {visited visited' expanded expanded' : List Node} {s s' : Search} (h : p.Reordered q)
  (hafter : After p limits visited s) (hafter' : After q limits visited' s')

include h hafter hafter'

/-- Searches that have come to the end of trees with the same tiers have taken up the same nodes. -/
lemma Problem.Reordered.visited_perm (hempty : s.frontier.toList = [])
    (hempty' : s'.frontier.toList = []) : visited.Perm visited' := by
  obtain ⟨k, hsweep, hend⟩ := (hempty ▸ hafter.traversed).exists_eq_sweep
  obtain ⟨k', hsweep', hend'⟩ := (hempty' ▸ hafter'.traversed).exists_eq_sweep
  have hends : ∀ j, k ≤ j → tier (q.offspring limits) q.root j = [] := fun j hj =>
    h.tier_offspring_eq_nil (hend j hj)
  rw [hsweep, hsweep', sweep_eq_sweep hend' hends]
  exact h.root_eq ▸ sweep_perm (h.offspring_perm limits) k

variable (hperm : visited.Perm visited')

include hperm

/-- Then they have left something out, or neither has. -/
lemma Problem.Reordered.limited_eq : s.limited = s'.limited := by
  rw [Bool.eq_iff_iff, hafter.limited_iff, hafter'.limited_iff]
  refine exists_congr fun n => ?_
  rw [hperm.mem_iff, Ne, Ne, ← List.length_eq_zero_iff, ← List.length_eq_zero_iff,
    (h.moves_perm n).length_eq]

/-- And they have counted the same. -/
lemma Problem.Reordered.stats_eq (htallied : Tallied p limits visited expanded s)
    (htallied' : Tallied q limits visited' expanded' s') : s.stats = s'.stats := by
  have hexpanded : expanded.Perm expanded' := by
    rw [htallied.expanded_eq, htallied'.expanded_eq]
    exact hperm.filter _
  have hcount : s.stats.expanded = s'.stats.expanded := by
    rw [htallied.expanded_count, htallied'.expanded_count, hexpanded.length_eq]
  have hgenerated : s.stats.generated = s'.stats.generated := by
    rw [htallied.generated_count, htallied'.generated_count, (hexpanded.map _).sum_eq]
    simp only [(h.children_perm _).length_eq]
  have hdepth : s.stats.depth = s'.stats.depth := by
    refine eq_of_forall_ge_iff fun m => ?_
    rw [htallied.depth_le_iff hafter, htallied'.depth_le_iff hafter']
    simp only [hperm.mem_iff]
  calc s.stats = ⟨s.stats.expanded, s.stats.generated, s.stats.depth⟩ := rfl
    _ = s'.stats := by rw [hcount, hgenerated, hdepth]

end Counts

/-- Searches without a limit on expansions, of problems that differ in the order of the actions,
both end if one of them does, and they end alike, if no move is at fault. -/
theorem search_of_reordered (hexpansions : limits.maxExpansions = none)
    (hfaultless : ∀ n, p.HasNode n → n.Faultless p.domain.actions) (h : p.Reordered q)
    (hends : p.Terminates limits ∨ q.Terminates limits) :
    p.Terminates limits ∧ q.Terminates limits ∧
      ∀ fuel fuel' v v', p.search? limits fuel = some v → q.search? limits fuel' = some v' →
        EndsAlike v v' := by
  have hfaultless' := h.faultless hfaultless
  refine ⟨?_, ?_, fun fuel fuel' v v' hv hv' => ?_⟩
  · exact hends.elim id (h.symm.terminates hexpansions hfaultless')
  · exact hends.elim (h.terminates hexpansions hfaultless) id
  obtain ⟨⟨outcome, stats⟩, rfl⟩ := exists_report_of_faultless hfaultless hv
  obtain ⟨⟨outcome', stats'⟩, rfl⟩ := exists_report_of_faultless hfaultless' hv'
  cases outcome with
  | found n =>
    cases outcome' with
    | found n' =>
      exact .found (Nat.le_antisymm (h.level_le hv hv' rfl rfl) (h.symm.level_le hv' hv rfl rfl))
    | exhausted e => exact absurd rfl (h.outcome_ne_exhausted hexpansions hv hv' rfl)
  | exhausted e =>
    cases outcome' with
    | found n' => exact absurd rfl (h.symm.outcome_ne_exhausted hexpansions hv' hv rfl)
    | exhausted e' =>
      obtain ⟨visited, expanded, s, hafter, htallied, hempty, rfl, rfl⟩ :=
        exists_tallied_of_exhausted hexpansions hv rfl
      obtain ⟨visited', expanded', s', hafter', htallied', hempty', rfl, rfl⟩ :=
        exists_tallied_of_exhausted hexpansions hv' rfl
      have hperm := h.visited_perm hafter hafter' hempty hempty'
      rw [h.limited_eq hafter hafter' hperm, h.stats_eq hafter hafter' hperm htallied htallied']
      exact .exhausted

/-- A walker who may also stay finds the second place at the first level, whichever of the two
actions is tried first, though not after as many expansions.  Searches for a place that is not there
count the same under a level cap. -/
theorem stroll_search_of_reordered :
    (∃ report report', (Walk.stroll ["a", "b"] "b").search? {} 2 = some (.ok report) ∧
      (Walk.dawdle ["a", "b"] "b").search? {} 3 = some (.ok report') ∧
      report.stats ≠ report'.stats ∧ EndsAlike (.ok report) (.ok report')) ∧
    (Walk.dawdle ["a", "b"] "z").Terminates { maxLevel := some 2 } ∧
    ∃ v v', (Walk.stroll ["a", "b"] "z").search? { maxLevel := some 2 } 7 = some v ∧
      (Walk.dawdle ["a", "b"] "z").search? { maxLevel := some 2 } 7 = some v' ∧ EndsAlike v v' := by
  have hreordered : ∀ goal, (Walk.stroll ["a", "b"] goal).Reordered (Walk.dawdle ["a", "b"] goal) :=
    fun _ => ⟨rfl, rfl, .swap ..⟩
  have hfaultless := fun goal => faultless_of_hasNode (Walk.coherent_stroll ["a", "b"] goal)
  obtain ⟨report, report', hstroll, hdawdle, hstats⟩ : ∃ report report' : Report,
      (Walk.stroll ["a", "b"] "b").search? {} 2 = some (.ok report) ∧
        (Walk.dawdle ["a", "b"] "b").search? {} 3 = some (.ok report') ∧
        report.stats ≠ report'.stats := ⟨_, _, rfl, rfl, by decide +kernel⟩
  obtain ⟨-, -, halike⟩ :=
    search_of_reordered rfl (hfaultless "b") (hreordered "b") (.inl ⟨2, _, hstroll⟩)
  obtain ⟨v, v', hv, hv'⟩ : ∃ v v',
      (Walk.stroll ["a", "b"] "z").search? { maxLevel := some 2 } 7 = some v ∧
        (Walk.dawdle ["a", "b"] "z").search? { maxLevel := some 2 } 7 = some v' :=
    ⟨_, _, rfl, rfl⟩
  obtain ⟨-, hends, halike'⟩ :=
    search_of_reordered rfl (hfaultless "z") (hreordered "z") (.inl ⟨7, v, hv⟩)
  exact ⟨⟨report, report', hstroll, hdawdle, hstats, halike _ _ _ _ hstroll hdawdle⟩, hends,
    v, v', hv, hv', halike' _ _ _ _ hv hv'⟩

end ClassicalPlanning
