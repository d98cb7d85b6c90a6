/-
What a level cap makes of a search.

Under a level cap, and without a limit on expansions, a search looks at the nodes of the
tree down to the cap.  How it ends depends on these nodes alone, and on whether those at
the cap could go on: this is the main result, `search_outcome_of_maxLevel`.
-/
import ClassicalPlanning.Proofs.Search.Run
import ClassicalPlanning.Proofs.Walk

namespace ClassicalPlanning

/-- Some node of the search tree satisfies the goal at the level `m` or above it. -/
def Problem.SolvedWithin (p : Problem) (m : ℕ) : Prop :=
  ∃ n, p.HasNode n ∧ n.level ≤ m ∧ n.state.Satisfies p.goal

/-- At some node of the level `m` an action has a grounding. -/
def Problem.GoesOnAt (p : Problem) (m : ℕ) : Prop :=
  ∃ n, p.HasNode n ∧ n.level = m ∧ ∃ a ∈ p.domain.actions, a.groundings n.state ≠ []

variable {p : Problem} {limits : SearchLimits} {m : ℕ} {n : Node}

lemma moves_survey_ne_nil_iff {actions : List Action} :
    (n.survey actions).moves ≠ [] ↔ ∃ a ∈ actions, a.groundings n.state ≠ [] := by
  simp [Survey.moves, Node.survey, List.flatMap_eq_nil_iff]

/-- Above a node there are nodes of all levels, and they go on. -/
lemma goesOnAt_of_lt_level (hn : p.HasNode n) (hm : m < n.level) : p.GoesOnAt m := by
  obtain ⟨way, hway⟩ := hn
  have hlength : m < way.length := level_of_nodeAt? hway ▸ hm
  rw [← List.take_append_drop (m + 1) way, List.take_succ_eq_append_getElem hlength,
    Problem.nodeAt?, List.foldlM_append] at hway
  obtain ⟨child, hchild, -⟩ := Option.bind_eq_some_iff.mp hway
  change p.nodeAt? (way.take m ++ [way[m]]) = some child at hchild
  rw [nodeAt?_concat] at hchild
  obtain ⟨parent, hparent, hchild⟩ := Option.bind_eq_some_iff.mp hchild
  obtain ⟨a, g, next, ha, hg, -, -⟩ := child?_eq_some_iff.mp hchild
  refine ⟨parent, ⟨_, hparent⟩, ?_, a, List.mem_of_getElem? ha, ?_⟩
  · rw [level_of_nodeAt? hparent, List.length_take_of_le hlength.le]
  · exact List.ne_nil_of_mem (List.mem_of_getElem? hg)

namespace Search

variable {visited : List Node} {s : Search}

lemma After.mem_visited_of_level_le (h : After p limits visited s)
    (hempty : s.frontier.toList = []) (hm : limits.maxLevel = some m) (hn : p.HasNode n)
    (hle : n.level ≤ m) : n ∈ visited :=
  h.mem_visited hempty hn fun _ hj => SearchLimits.caps_eq_false_of_lt hm (hj.trans_le hle)

lemma After.not_solvedWithin (h : After p limits visited s) (hempty : s.frontier.toList = [])
    (hm : limits.maxLevel = some m) : ¬ p.SolvedWithin m := by
  rintro ⟨n, hn, hle, hgoal⟩
  exact h.goalless n (h.mem_visited_of_level_le hempty hm hn hle) hgoal

/-- When no node is waiting any more, something has been left out just if a node at the cap
goes on. -/
lemma After.limited_iff_goesOnAt (h : After p limits visited s)
    (hempty : s.frontier.toList = []) (hm : limits.maxLevel = some m) :
    s.limited = true ↔ p.GoesOnAt m := by
  rw [h.limited_iff]
  constructor
  · rintro ⟨n, hn, hcap, hmoves⟩
    have hmem : n ∈ visited ++ s.frontier.toList := List.mem_append_left _ hn
    have hlevel : some n.level = some m := (h.maxLevel_eq hmem hcap).symm.trans hm
    exact ⟨n, h.hasNode hmem, Option.some.inj hlevel, moves_survey_ne_nil_iff.mp hmoves⟩
  · rintro ⟨n, hn, rfl, hgroundings⟩
    exact ⟨n, h.mem_visited_of_level_le hempty hm hn le_rfl, SearchLimits.caps_self hm,
      moves_survey_ne_nil_iff.mpr hgroundings⟩

end Search

open Search

variable {fuel : ℕ} {report : Report}

/-- Under a level cap and no limit on expansions, a search that ends without a fault finds a
goal node just if there is one down to the cap.  Otherwise it reports the limit just if
some node at the cap goes on, and that there is no plan just if none does; then the whole
tree ends at the cap and has no goal node. -/
theorem search_outcome_of_maxLevel (hlevel : limits.maxLevel = some m)
    (hexpansions : limits.maxExpansions = none) (h : p.search? limits fuel = some (.ok report)) :
    ((∃ node, report.outcome = .found node) ↔ p.SolvedWithin m) ∧
    (report.outcome = .exhausted .limitReached ↔ ¬ p.SolvedWithin m ∧ p.GoesOnAt m) ∧
    (report.outcome = .exhausted .noPlan ↔ ¬ p.SolvedWithin m ∧ ¬ p.GoesOnAt m) ∧
    (report.outcome = .exhausted .noPlan →
      ∀ n, p.HasNode n → n.level ≤ m ∧ ¬ n.state.Satisfies p.goal) := by
  cases hout : report.outcome with
  | found node =>
    obtain ⟨visited, s, rest, hafter, hfrontier, hgoal⟩ := exists_after_of_found h hout
    have hmem : node ∈ visited ++ s.frontier.toList := by simp [hfrontier]
    have hsolved : p.SolvedWithin m :=
      ⟨node, hafter.hasNode hmem, hafter.level_le hlevel hmem, hgoal⟩
    simp [hsolved]
  | exhausted e =>
    obtain ⟨visited, s, hafter, hempty, rfl⟩ := exists_after_of_exhausted h hout hexpansions
    have hunsolved := hafter.not_solvedWithin hempty hlevel
    have hlimited := hafter.limited_iff_goesOnAt hempty hlevel
    by_cases hgoes : p.GoesOnAt m
    · simp [hunsolved, hgoes, hlimited.mpr hgoes]
    · have hfull : s.limited = false := Bool.eq_false_iff.mpr fun h => hgoes (hlimited.mp h)
      have hall : ∀ n, p.HasNode n → n.level ≤ m ∧ ¬ n.state.Satisfies p.goal := by
        intro n hn
        have hle : n.level ≤ m := by
          by_contra hlt
          exact hgoes (goesOnAt_of_lt_level hn (by omega))
        exact ⟨hle, fun hgoal => hunsolved ⟨n, hn, hle, hgoal⟩⟩
      simpa [hunsolved, hgoes, hfull] using hall

/-- On a line of three places a walker who may take one step has not seen everything, and a
walker who may take two has. -/
theorem walk_outcome_of_maxLevel :
    (¬ (Walk.problem ["a", "b", "c"] "z").SolvedWithin 1 ∧
      (Walk.problem ["a", "b", "c"] "z").GoesOnAt 1) ∧
    ¬ (Walk.problem ["a", "b", "c"] "z").SolvedWithin 2 ∧
      ¬ (Walk.problem ["a", "b", "c"] "z").GoesOnAt 2 := by
  obtain ⟨report, hsearch, hout⟩ : ∃ report : Report,
      (Walk.problem ["a", "b", "c"] "z").search? { maxLevel := some 1 } 3 = some (.ok report) ∧
        report.outcome = .exhausted .limitReached := ⟨_, rfl, rfl⟩
  obtain ⟨report', hsearch', hout'⟩ : ∃ report : Report,
      (Walk.problem ["a", "b", "c"] "z").search? { maxLevel := some 2 } 4 = some (.ok report) ∧
        report.outcome = .exhausted .noPlan := ⟨_, rfl, rfl⟩
  exact ⟨(search_outcome_of_maxLevel rfl rfl hsearch).2.1.mp hout,
    (search_outcome_of_maxLevel rfl rfl hsearch').2.2.1.mp hout'⟩

end ClassicalPlanning
