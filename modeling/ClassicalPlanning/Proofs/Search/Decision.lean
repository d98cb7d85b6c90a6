/-
What a search without limits decides.

If no move of the tree is at fault, a search without limits finds a node just if there is a
goal node, and then its level is the least of a goal node (`findsAt_iff`); and it reports that
there is no plan just if the tree ends and has no goal node (`findsNone_iff`).  In a tree that
does not end and has no goal node it goes on for ever.
-/
import ClassicalPlanning.Proofs.Search.Optimality
import Mathlib.Algebra.Order.BigOperators.Group.List

namespace ClassicalPlanning

namespace Problem

/-- The search ends with a node of the level. -/
def FindsAt (p : Problem) (limits : SearchLimits) (level : ℕ) : Prop :=
  ∃ fuel report node, p.search? limits fuel = some (.ok report) ∧
    report.outcome = .found node ∧ node.level = level

/-- The search ends with the report that there is no plan. -/
def FindsNone (p : Problem) (limits : SearchLimits) : Prop :=
  ∃ fuel report, p.search? limits fuel = some (.ok report) ∧
    report.outcome = .exhausted .noPlan

end Problem

variable {p : Problem} {limits : SearchLimits}

lemma level_le_of_isFirst {n n' : Node} (h : p.IsFirst n) (hn' : p.HasNode n')
    (hgoal : n'.state.Satisfies p.goal) : n.level ≤ n'.level := by
  obtain ⟨way, ⟨hway, -⟩, hfirst⟩ := h
  obtain ⟨way', hway'⟩ := hn'
  rw [level_of_nodeAt? hway, level_of_nodeAt? hway']
  rcases hfirst way' n' ⟨hway', hgoal⟩ with rfl | hshortlex
  · exact le_rfl
  · rcases List.shortlex_def.mp hshortlex with hlt | ⟨heq, -⟩
    · exact hlt.le
    · exact heq.le

section Decision

variable (hlevel : limits.maxLevel = none) (hexpansions : limits.maxExpansions = none)
  (hfaultless : ∀ n, p.HasNode n → n.Faultless p.domain.actions)

include hlevel hexpansions hfaultless

/-- Where there is a goal node, a search finds one, and not at a deeper level. -/
lemma exists_findsAt_of_hasNode {n : Node} (hn : p.HasNode n) (hgoal : n.state.Satisfies p.goal) :
    ∃ d ≤ n.level, p.FindsAt limits d := by
  obtain ⟨fuel, ⟨report, node, hsearch, hfound⟩ | ⟨fault, hfault⟩⟩ :=
    exists_verdict_of_hasNode hlevel hexpansions hn hgoal
  · have hle : node.level ≤ n.level :=
      level_le_of_isFirst (isFirst_of_found hsearch hfound) hn hgoal
    exact ⟨node.level, hle, fuel, report, node, hsearch, hfound, rfl⟩
  · exact absurd hfault (search?_ne_error_of_faultless hfaultless limits fuel fault)

theorem findsAt_iff {d : ℕ} :
    p.FindsAt limits d ↔ (∃ n, p.HasNode n ∧ n.level = d ∧ n.state.Satisfies p.goal) ∧
      ∀ n, p.HasNode n → n.state.Satisfies p.goal → d ≤ n.level := by
  constructor
  · rintro ⟨fuel, report, node, hsearch, hfound, rfl⟩
    have hfirst := isFirst_of_found hsearch hfound
    obtain ⟨way, ⟨hway, hgoal⟩, -⟩ := id hfirst
    exact ⟨⟨node, ⟨way, hway⟩, rfl, hgoal⟩, fun n hn hgoal => level_le_of_isFirst hfirst hn hgoal⟩
  · rintro ⟨⟨n, hn, rfl, hgoal⟩, hleast⟩
    obtain ⟨d, hle, hfinds⟩ := exists_findsAt_of_hasNode hlevel hexpansions hfaultless hn hgoal
    obtain ⟨fuel, report, node, hsearch, hfound, rfl⟩ := id hfinds
    obtain ⟨way, ⟨hway, hgoal'⟩, -⟩ := isFirst_of_found hsearch hfound
    have hge : n.level ≤ node.level := hleast node ⟨way, hway⟩ hgoal'
    exact Nat.le_antisymm hle hge ▸ hfinds

theorem findsNone_iff :
    p.FindsNone limits ↔ (∃ k, ∀ n, p.HasNode n → n.level < k) ∧
      ∀ n, p.HasNode n → ¬ n.state.Satisfies p.goal := by
  have hcaps : ∀ level, limits.caps level = false := SearchLimits.caps_eq_false hlevel
  constructor
  · rintro ⟨fuel, report, hsearch, hout⟩
    obtain ⟨visited, s, hafter, hempty, -⟩ := exists_after_of_exhausted hsearch hout hexpansions
    have hvisited : ∀ n, p.HasNode n → n ∈ visited := fun n hn =>
      hafter.mem_visited hempty hn fun j _ => hcaps j
    -- All nodes of the tree have been taken up, so the sum of their levels bounds each level.
    refine ⟨⟨(visited.map Node.level).sum + 1, fun n hn => ?_⟩, fun n hn =>
      hafter.goalless n (hvisited n hn)⟩
    have hle : n.level ≤ (visited.map Node.level).sum :=
      List.le_sum_of_mem (List.mem_map_of_mem (hvisited n hn))
    omega
  · rintro ⟨⟨k, hk⟩, hgoalless⟩
    obtain ⟨fuel, v, hverdict⟩ : p.Terminates limits :=
      terminates_of_tier_eq_nil fun _ hj => tier_offspring_eq_nil_of_level_lt hk hj
    obtain ⟨report, rfl⟩ := exists_report_of_faultless hfaultless hverdict
    refine ⟨fuel, report, hverdict, ?_⟩
    cases hout : report.outcome with
    | found node =>
      obtain ⟨visited, s, rest, hafter, hfrontier, hgoal⟩ := exists_after_of_found hverdict hout
      exact absurd hgoal (hgoalless node (hafter.hasNode (by simp [hfrontier])))
    | exhausted e =>
      obtain ⟨visited, s, hafter, -, rfl⟩ := exists_after_of_exhausted hverdict hout hexpansions
      have hfull : s.limited = false := by
        rw [Bool.eq_false_iff, Ne, hafter.limited_iff]
        rintro ⟨n, -, hcap, -⟩
        simp [hcaps] at hcap
      simp [hfull]

end Decision

end ClassicalPlanning
