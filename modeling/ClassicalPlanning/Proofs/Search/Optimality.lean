/-
The first goal node.

Breadth-first order goes by the length of the ways to the nodes and, for ways of one
length, by their choices, the earlier choices first.  A search takes up the nodes of the
tree in this order, so the node that it finds is the first goal node of the whole tree,
whatever the limits.  Without limits a search cannot miss a goal node: it finds one, unless
it meets a move at fault before.  This is the main result, `search_finds_first`.
-/
import ClassicalPlanning.Proofs.Search.Run
import ClassicalPlanning.Proofs.Walk

namespace ClassicalPlanning

/-- At the end of the way there is a goal node. -/
def Problem.Solves (p : Problem) (way : List Choice) (n : Node) : Prop :=
  p.nodeAt? way = some n ∧ n.state.Satisfies p.goal

/-- The node is the first goal node of the search tree in breadth-first order. -/
def Problem.IsFirst (p : Problem) (n : Node) : Prop :=
  ∃ way, p.Solves way n ∧
    ∀ way' n', p.Solves way' n' → way' = way ∨ List.Shortlex Choice.Before way way'

variable {p : Problem} {limits : SearchLimits} {fuel : ℕ} {report : Search.Report} {node : Node}

/-- A search finds no goal node but the first one. -/
lemma isFirst_of_found (h : p.search? limits fuel = some (.ok report))
    (hfound : report.outcome = .found node) : p.IsFirst node := by
  obtain ⟨visited, s, rest, hafter, hfrontier, hgoal⟩ := exists_after_of_found h hfound
  obtain ⟨k, others, hk⟩ := hafter.exists_sweep
  rw [hfrontier, ← map_sweep_forks, List.append_assoc, eq_comm, List.map_eq_append_iff] at hk
  obtain ⟨before, after, hsweep, hbefore, hafter'⟩ := hk
  obtain ⟨⟨way, n⟩, after, rfl, rfl, -⟩ := List.map_eq_cons_iff.mp hafter'
  have hmem : (way, n) ∈ sweep p.forks ([], p.root) k := by simp [hsweep]
  obtain ⟨j, -, hj⟩ := mem_sweep.mp hmem
  refine ⟨way, ⟨(mem_tier_forks.mp hj).2, hgoal⟩, ?_⟩
  rintro way' n' ⟨hway', hgoal'⟩
  -- Both ways stand in a sweep that is long enough.
  obtain ⟨others', hothers'⟩ : sweep p.forks ([], p.root) k <+:
      sweep p.forks ([], p.root) (max k (way'.length + 1)) :=
    sweep_prefix_sweep (Nat.le_max_left _ _)
  have hmem' : (way', n') ∈ sweep p.forks ([], p.root) (max k (way'.length + 1)) :=
    mem_sweep.mpr ⟨way'.length, by omega, mem_tier_forks.mpr ⟨rfl, hway'⟩⟩
  have hpairwise := pairwise_sweep_forks p (max k (way'.length + 1))
  rw [← hothers', hsweep] at hmem' hpairwise
  simp only [List.append_assoc, List.cons_append, List.mem_append, List.mem_cons] at hmem'
  rcases hmem' with hmem' | heq | hmem'
  · have hvisited : n' ∈ visited := hbefore ▸ List.mem_map.mpr ⟨(way', n'), hmem', rfl⟩
    exact absurd hgoal' (hafter.goalless n' hvisited)
  · exact Or.inl (congrArg Prod.fst heq)
  · rw [List.append_assoc, List.pairwise_append] at hpairwise
    obtain ⟨-, hlater, -⟩ := hpairwise
    have hin : (way', n') ∈ after ++ others' := List.mem_append.mpr hmem'
    exact Or.inr (List.rel_of_pairwise_cons hlater hin)

/-- A search without limits ends with a goal node or with a fault, if there is a goal
node. -/
lemma exists_verdict_of_hasNode (hlevel : limits.maxLevel = none)
    (hexpansions : limits.maxExpansions = none) {n : Node} (hn : p.HasNode n)
    (hgoal : n.state.Satisfies p.goal) :
    ∃ fuel,
      (∃ report node, p.search? limits fuel = some (.ok report) ∧ report.outcome = .found node) ∨
      ∃ fault, p.search? limits fuel = some (.error fault) := by
  have hcaps : ∀ j < n.level, limits.caps j = false := fun j _ =>
    SearchLimits.caps_eq_false hlevel j
  refine ⟨(sweep (p.offspring limits) p.root (n.level + 1)).length, ?_⟩
  rcases hverdict : p.search? limits _ with _ | fault | report
  · exact absurd hverdict (search?_ne_none_of_goal (mem_tier_offspring hn hcaps) hgoal)
  · exact Or.inr ⟨fault, rfl⟩
  · refine Or.inl ⟨report, ?_⟩
    cases hout : report.outcome with
    | found node => exact ⟨node, rfl, rfl⟩
    | exhausted e =>
      obtain ⟨visited, s, hafter, hempty, -⟩ :=
        exists_after_of_exhausted hverdict hout hexpansions
      exact absurd hgoal (hafter.goalless n (hafter.mem_visited hempty hn hcaps))

/-- A search finds no other goal node than the first one, under any limits.  Without limits
it ends if there is a goal node, and then it has found one, unless some move at a node of
the tree is at fault. -/
theorem search_finds_first (p : Problem) (limits : SearchLimits) :
    (∀ fuel report node, p.search? limits fuel = some (.ok report) →
      report.outcome = .found node → p.IsFirst node) ∧
    (limits.maxLevel = none → limits.maxExpansions = none →
      (∃ n, p.HasNode n ∧ n.state.Satisfies p.goal) →
      ∃ fuel,
        (∃ report node, p.search? limits fuel = some (.ok report) ∧
          report.outcome = .found node) ∨
        ∃ fault n m, p.search? limits fuel = some (.error fault) ∧ p.HasNode n ∧
          m ∈ (n.survey p.domain.actions).moves ∧ n.apply m = .error fault) := by
  refine ⟨fun fuel report node h hfound => isFirst_of_found h hfound, ?_⟩
  rintro hlevel hexpansions ⟨n, hn, hgoal⟩
  obtain ⟨fuel, hfound | ⟨fault, hfault⟩⟩ := exists_verdict_of_hasNode hlevel hexpansions hn hgoal
  · exact ⟨fuel, Or.inl hfound⟩
  · obtain ⟨n, m, hn, hm, happly⟩ := exists_apply_of_search?_error hfault
    exact ⟨fuel, Or.inr ⟨fault, n, m, hfault, hn, hm, happly⟩⟩

/-- On a line of three places the way to the last one is found, and there is one to be
found. -/
theorem walk_finds_first :
    (∃ (report : Search.Report) (node : Node),
      (Walk.problem ["a", "b", "c"] "c").search? {} 3 = some (.ok report) ∧
        report.outcome = .found node ∧ (Walk.problem ["a", "b", "c"] "c").IsFirst node) ∧
    ∃ fuel, (∃ (report : Search.Report) (node : Node),
        (Walk.problem ["a", "b", "c"] "c").search? {} fuel = some (.ok report) ∧
          report.outcome = .found node) ∨
      ∃ (fault : Fault) (n : Node) (m : Move),
        (Walk.problem ["a", "b", "c"] "c").search? {} fuel = some (.error fault) ∧
          (Walk.problem ["a", "b", "c"] "c").HasNode n ∧ m ∈ (n.survey [Walk.step]).moves ∧
          n.apply m = .error fault := by
  obtain ⟨hfirst, hends⟩ := search_finds_first (Walk.problem ["a", "b", "c"] "c") {}
  refine ⟨?_, hends rfl rfl ⟨_, ⟨[⟨0, 0⟩, ⟨0, 0⟩], rfl⟩, by decide +kernel⟩⟩
  obtain ⟨report, node, hsearch, hfound⟩ : ∃ (report : Search.Report) (node : Node),
      (Walk.problem ["a", "b", "c"] "c").search? {} 3 = some (.ok report) ∧
        report.outcome = .found node := ⟨_, _, rfl, rfl⟩
  exact ⟨report, node, hsearch, hfound, hfirst 3 report node hsearch hfound⟩

end ClassicalPlanning
