/-
Runs of the search.

`Search.Turned` lists what one turn of the search can do, apart from the events that it
reports, and `turned_step` says that this is all.  `Search.After` is what holds of a search
after some turns, in terms of the nodes that it has taken up so far: they and the nodes
in the queue are a breadth-first traversal of the search tree, cut off at the level cap.

The main results are

* `exists_after_of_search?`: a search that has ended did so in a turn from such a
  situation;
* `exists_after_of_search?_eq_none`: a search that has not ended has taken up one node for
  each of its turns.

`Search.Reached` says the same of a search as a definition of its own: it comes up in the
course of the search of a problem.
-/
import ClassicalPlanning.Proofs.Search.Course
import ClassicalPlanning.Proofs.Search.Tree

namespace ClassicalPlanning

/-! ## Limits -/

namespace SearchLimits

variable {limits : SearchLimits}

lemma caps_iff {level : ℕ} :
    limits.caps level = true ↔ ∃ m, limits.maxLevel = some m ∧ m ≤ level := by
  simp [caps, Option.any_eq_true]

lemma caps_of_le {level level' : ℕ} (h : limits.caps level = true) (hle : level ≤ level') :
    limits.caps level' = true := by
  obtain ⟨m, hm, hlevel⟩ := caps_iff.mp h
  exact caps_iff.mpr ⟨m, hm, hlevel.trans hle⟩

lemma caps_eq_false_of_lt {m level : ℕ} (h : limits.maxLevel = some m) (hlt : level < m) :
    limits.caps level = false := by
  simpa [caps, h] using hlt

lemma caps_eq_false (h : limits.maxLevel = none) (level : ℕ) : limits.caps level = false := by
  simp [caps, h]

lemma caps_self {m : ℕ} (h : limits.maxLevel = some m) : limits.caps m = true := by
  simp [caps, h]

lemma spent_eq_false (h : limits.maxExpansions = none) (expanded : ℕ) :
    limits.spent expanded = false := by
  simp [spent, h]

end SearchLimits

/-! ## The children of a node, as the search generates them -/

/-- Every move of the node can be made. -/
def Node.Faultless (actions : List Action) (n : Node) : Prop :=
  ∀ m ∈ (n.survey actions).moves, ∃ child, n.apply m = .ok child

/-- The fault that an expansion of the node comes upon: that of the first move at fault. -/
def Node.fault? (actions : List Action) (n : Node) : Option Fault :=
  (n.brood (n.survey actions).moves).fault?

section Brood

variable {n : Node} {ms : List Move}

/-- The fault of a brood is the fault of one of the moves. -/
lemma exists_of_fault?_brood {fault : Fault} (h : (n.brood ms).fault? = some fault) :
    ∃ m ∈ ms, n.apply m = .error fault := by
  induction ms with
  | nil => simp [Node.brood] at h
  | cons m ms ih =>
    cases hm : n.apply m with
    | error fault' =>
      have heq : fault' = fault := by simpa [Node.brood, hm] using h
      exact ⟨m, List.mem_cons_self, heq ▸ hm⟩
    | ok child =>
      obtain ⟨m', hm', happly⟩ := ih (by simpa [Node.brood, hm] using h)
      exact ⟨m', List.mem_cons_of_mem _ hm', happly⟩

/-- Without a fault, every move has been made, and the children are complete. -/
lemma brood_of_fault?_eq_none (h : (n.brood ms).fault? = none) :
    (∀ m ∈ ms, ∃ child, n.apply m = .ok child) ∧
      (n.brood ms).children.map Node.takeUp =
        ms.filterMap fun m => (n.apply m).toOption.map Node.takeUp := by
  induction ms with
  | nil => simp [Node.brood]
  | cons m ms ih =>
    cases hm : n.apply m with
    | error fault => simp [Node.brood, hm] at h
    | ok child =>
      obtain ⟨hmoves, hchildren⟩ := ih (by simpa [Node.brood, hm] using h)
      refine ⟨?_, ?_⟩
      · intro m' hm'
        rcases List.mem_cons.mp hm' with rfl | hm'
        · exact ⟨child, hm⟩
        · exact hmoves m' hm'
      · simp [Node.brood, hm, hchildren, Except.toOption]

/-- The children of a brood are nodes that the moves lead to. -/
lemma exists_of_mem_children_brood {child : Node} (h : child ∈ (n.brood ms).children) :
    ∃ m ∈ ms, n.apply m = .ok child := by
  induction ms with
  | nil => simp [Node.brood] at h
  | cons m ms ih =>
    cases hm : n.apply m with
    | error fault => simp [Node.brood, hm] at h
    | ok next =>
      simp only [Node.brood, hm, List.mem_cons] at h
      rcases h with rfl | h
      · exact ⟨m, List.mem_cons_self, hm⟩
      · obtain ⟨m', hm', happly⟩ := ih h
        exact ⟨m', List.mem_cons_of_mem _ hm', happly⟩

lemma fault?_eq_none_of_faultless {actions : List Action} (h : n.Faultless actions) :
    n.fault? actions = none := by
  cases hfault : n.fault? actions with
  | none => rfl
  | some fault =>
    obtain ⟨m, hm, happly⟩ := exists_of_fault?_brood hfault
    obtain ⟨child, hchild⟩ := h m hm
    simp [hchild] at happly

end Brood

/-! ## Turns -/

namespace Search

/-- What a turn can do, the events apart. -/
inductive Turned (p : Problem) (limits : SearchLimits) (s : Search) : Turn → Prop
  /-- No node is waiting, and the search ends. -/
  | exhausted (hempty : s.frontier.toList = []) :
      Turned p limits s (.done (.ok
        { outcome := .exhausted (if s.limited then .limitReached else .noPlan), stats := s.stats }))
  /-- The next node is a goal node, and the search ends. -/
  | found {node : Node} {rest : List Node} (hfrontier : s.frontier.toList = node :: rest)
      (hgoal : node.state.Satisfies p.goal) :
      Turned p limits s (.done (.ok
        { outcome := .found node, stats := { s.stats with depth := max s.stats.depth node.level } }))
  /-- The next node is at the level cap, and it is left unexpanded. -/
  | capped {node : Node} {rest : List Node} {queue : Queue Node}
      (hfrontier : s.frontier.toList = node :: rest) (hgoal : ¬ node.state.Satisfies p.goal)
      (hcap : limits.caps node.level = true) (hqueue : queue.toList = rest) :
      Turned p limits s (.more
        { frontier := queue, stats := { s.stats with depth := max s.stats.depth node.level }
          level? := some node.level
          limited := s.limited || !(node.survey p.domain.actions).moves.isEmpty })
  /-- The next node would have to be expanded, but the expansions are spent. -/
  | spent {node : Node} {rest : List Node} (hfrontier : s.frontier.toList = node :: rest)
      (hgoal : ¬ node.state.Satisfies p.goal) (hcap : limits.caps node.level = false)
      (hspent : limits.spent s.stats.expanded = true) :
      Turned p limits s (.done (.ok
        { outcome := .exhausted .limitReached
          stats := { s.stats with depth := max s.stats.depth node.level } }))
  /-- The next node is expanded, and one of its moves is at fault. -/
  | faulty {node : Node} {rest : List Node} {fault : Fault}
      (hfrontier : s.frontier.toList = node :: rest) (hgoal : ¬ node.state.Satisfies p.goal)
      (hcap : limits.caps node.level = false) (hspent : limits.spent s.stats.expanded = false)
      (hfault : node.fault? p.domain.actions = some fault) :
      Turned p limits s (.done (.error fault))
  /-- The next node is expanded, and its children are put at the end of the queue. -/
  | expanded {node : Node} {rest : List Node} {queue : Queue Node}
      (hfrontier : s.frontier.toList = node :: rest) (hgoal : ¬ node.state.Satisfies p.goal)
      (hcap : limits.caps node.level = false) (hspent : limits.spent s.stats.expanded = false)
      (hfaultless : node.Faultless p.domain.actions)
      (hqueue : queue.toList = rest ++ node.children p.domain.actions) :
      Turned p limits s (.more
        { frontier := queue
          stats :=
            { expanded := s.stats.expanded + 1
              generated := s.stats.generated + (node.children p.domain.actions).length
              depth := max s.stats.depth node.level }
          level? := some node.level
          limited := s.limited })

variable {p : Problem} {limits : SearchLimits} {s : Search}

lemma turned_expand {node : Node} {queue : Queue Node}
    (hfrontier : s.frontier.toList = node :: queue.toList) (hgoal : ¬ node.state.Satisfies p.goal)
    (hcap : limits.caps node.level = false) (hspent : limits.spent s.stats.expanded = false) :
    Turned p limits s
      (expand p node queue { s.stats with depth := max s.stats.depth node.level } s.limited).2 := by
  cases hfault : (node.brood (node.survey p.domain.actions).moves).fault? with
  | some fault =>
    simp only [expand, hfault]
    exact .faulty hfrontier hgoal hcap hspent hfault
  | none =>
    obtain ⟨hfaultless, hchildren⟩ := brood_of_fault?_eq_none hfault
    have hlength : (node.children p.domain.actions).length
        = (node.brood (node.survey p.domain.actions).moves).children.length := by
      rw [children_eq_filterMap, ← hchildren, List.length_map]
    simp only [expand, hfault, ← hlength]
    refine .expanded hfrontier hgoal hcap hspent hfaultless ?_
    rw [Queue.toList_pushAll, hchildren, children_eq_filterMap]

/-- A turn does nothing else. -/
lemma turned_step (p : Problem) (limits : SearchLimits) (s : Search) :
    Turned p limits s (step p limits s).2 := by
  cases hpop : s.frontier.pop? with
  | none =>
    simp only [step, hpop, finish]
    exact .exhausted (Queue.pop?_eq_none_iff.mp hpop)
  | some popped =>
    obtain ⟨node, queue⟩ := popped
    have hfrontier := Queue.toList_of_pop? hpop
    simp only [step, hpop, visit]
    split
    next hgoal => exact .found hfrontier hgoal
    next hgoal =>
      split
      next hcap => exact .capped hfrontier hgoal hcap rfl
      next hcap =>
        have hcap : limits.caps node.level = false := by simpa using hcap
        split
        next hspent => exact .spent hfrontier hgoal hcap hspent
        next hspent => exact turned_expand hfrontier hgoal hcap (by simpa using hspent)

/-! ### What the next node decides -/

section Turned

variable {turn : Turn} {node : Node} {rest : List Node}

lemma Turned.of_frontier_eq_nil (h : Turned p limits s turn) (hempty : s.frontier.toList = []) :
    ∃ report, turn = .done (.ok report) ∧
      report.outcome = .exhausted (if s.limited then .limitReached else .noPlan) := by
  cases h with
  | exhausted => exact ⟨_, rfl, rfl⟩
  | found hfrontier | capped hfrontier | spent hfrontier | faulty hfrontier | expanded hfrontier =>
    simp [hempty] at hfrontier

lemma Turned.of_satisfies (h : Turned p limits s turn)
    (hfrontier : s.frontier.toList = node :: rest) (hgoal : node.state.Satisfies p.goal) :
    ∃ report, turn = .done (.ok report) ∧ report.outcome = .found node := by
  cases h with
  | exhausted hempty => simp [hempty] at hfrontier
  | found hfrontier' =>
    obtain ⟨rfl, -⟩ := List.cons.inj (hfrontier.symm.trans hfrontier')
    exact ⟨_, rfl, rfl⟩
  | capped hfrontier' hgoal' | spent hfrontier' hgoal' | faulty hfrontier' hgoal'
  | expanded hfrontier' hgoal' =>
    obtain ⟨rfl, -⟩ := List.cons.inj (hfrontier.symm.trans hfrontier')
    exact absurd hgoal hgoal'

/-- A node that may be expanded is expanded: either its moves all lead on, or the search ends
with the fault of the first that does not. -/
lemma Turned.of_expandable (h : Turned p limits s turn)
    (hfrontier : s.frontier.toList = node :: rest) (hgoal : ¬ node.state.Satisfies p.goal)
    (hcap : limits.caps node.level = false) (hspent : limits.spent s.stats.expanded = false) :
    (∃ fault, node.fault? p.domain.actions = some fault ∧ turn = .done (.error fault)) ∨
      node.Faultless p.domain.actions ∧ ∃ next, turn = .more next ∧
        next.frontier.toList = rest ++ node.children p.domain.actions ∧
        next.limited = s.limited := by
  cases h with
  | exhausted hempty => simp [hempty] at hfrontier
  | found hfrontier' hgoal' =>
    obtain ⟨rfl, -⟩ := List.cons.inj (hfrontier.symm.trans hfrontier')
    exact absurd hgoal' hgoal
  | capped hfrontier' _ hcap' =>
    obtain ⟨rfl, -⟩ := List.cons.inj (hfrontier.symm.trans hfrontier')
    simp [hcap] at hcap'
  | spent _ _ _ hspent' => simp [hspent] at hspent'
  | faulty hfrontier' _ _ _ hfault =>
    obtain ⟨rfl, -⟩ := List.cons.inj (hfrontier.symm.trans hfrontier')
    exact Or.inl ⟨_, hfault, rfl⟩
  | expanded hfrontier' _ _ _ hfaultless hqueue =>
    obtain ⟨rfl, rfl⟩ := List.cons.inj (hfrontier.symm.trans hfrontier')
    exact Or.inr ⟨hfaultless, _, rfl, hqueue, rfl⟩

end Turned

/-! ## Situations -/

/-- The search `s` comes up in the course of the search of the problem under the limits. -/
inductive Reached (p : Problem) (limits : SearchLimits) : Search → Prop
  /-- At the start the root is waiting. -/
  | start : Reached p limits (.start p)
  /-- A turn has not ended the search. -/
  | turn {s next : Search} (h : Reached p limits s) (hstep : (step p limits s).2 = .more next) :
      Reached p limits next

/-- What holds of a search that has taken up the nodes `visited`, in this order. -/
structure After (p : Problem) (limits : SearchLimits) (visited : List Node) (s : Search) :
    Prop where
  /-- The nodes taken up and those in the queue are a breadth-first traversal of the tree
  down to the level cap. -/
  traversed : Traversed (p.offspring limits) p.root visited s.frontier.toList
  /-- No goal node has been taken up. -/
  goalless : ∀ n ∈ visited, ¬ n.state.Satisfies p.goal
  /-- No node has been expanded that has a move at fault. -/
  faultless : ∀ n ∈ visited, limits.caps n.level = false → n.Faultless p.domain.actions
  /-- Something has been left out if a node at the level cap had a move. -/
  limited_iff : s.limited = true ↔
    ∃ n ∈ visited, limits.caps n.level = true ∧ (n.survey p.domain.actions).moves ≠ []

lemma After.start (p : Problem) (limits : SearchLimits) : After p limits [] (.start p) where
  traversed := .start
  goalless := by simp
  faultless := by simp
  limited_iff := by simp [Search.start]

/-- The nodes taken up and those in the queue are a beginning of a list of the tree, tier by
tier. -/
lemma After.exists_sweep {visited : List Node} (h : After p limits visited s) :
    ∃ k, visited ++ s.frontier.toList <+: sweep (Node.children p.domain.actions) p.root k := by
  obtain ⟨k, hk⟩ := h.traversed.exists_sweep
  obtain ⟨j, hj⟩ := exists_sweep_offspring p limits k
  exact ⟨j, hj ▸ hk⟩

lemma After.hasNode {visited : List Node} (h : After p limits visited s) {n : Node}
    (hn : n ∈ visited ++ s.frontier.toList) : p.HasNode n := by
  obtain ⟨k, hk⟩ := h.exists_sweep
  obtain ⟨j, -, hj⟩ := mem_sweep.mp (hk.subset hn)
  exact (mem_tier_children.mp hj).1

/-- No node is deeper than the level cap. -/
lemma After.level_le {visited : List Node} (h : After p limits visited s) {m : ℕ}
    (hm : limits.maxLevel = some m) {n : Node} (hn : n ∈ visited ++ s.frontier.toList) :
    n.level ≤ m := by
  refine h.traversed.forall_mem (P := fun n => n.level ≤ m) (Nat.zero_le m)
    (fun parent _ child hchild => ?_) n hn
  obtain ⟨hcap, hchild⟩ := mem_offspring.mp hchild
  have hlevel : parent.level < m := by simpa [SearchLimits.caps, hm] using hcap
  rw [level_of_mem_children hchild]
  exact hlevel

/-- A node that is not expanded for its level is of the level of the cap. -/
lemma After.maxLevel_eq {visited : List Node} (h : After p limits visited s) {n : Node}
    (hn : n ∈ visited ++ s.frontier.toList) (hcap : limits.caps n.level = true) :
    limits.maxLevel = some n.level := by
  obtain ⟨m, hm, hle⟩ := SearchLimits.caps_iff.mp hcap
  rw [hm, Nat.le_antisymm (h.level_le hm hn) hle]

/-- When no node is waiting any more, all nodes that the cap lets through have been taken
up. -/
lemma After.mem_visited {visited : List Node} (h : After p limits visited s)
    (hempty : s.frontier.toList = []) {n : Node} (hn : p.HasNode n)
    (hcaps : ∀ j < n.level, limits.caps j = false) : n ∈ visited := by
  have htraversed := h.traversed
  rw [hempty] at htraversed
  exact htraversed.mem_of_mem_tier (mem_tier_offspring hn hcaps)

/-- A turn that does not end the search takes up the next node. -/
lemma After.turn {visited : List Node} {next : Search} (h : After p limits visited s)
    (hturn : Turned p limits s (.more next)) :
    ∃ node, s.next? = some node ∧ After p limits (visited ++ [node]) next := by
  cases hturn with
  | @capped node rest queue hfrontier hgoal hcap hqueue =>
    refine ⟨node, by rw [next?, hfrontier, List.head?_cons], ?_, ?_, ?_, ?_⟩
    · have htake := (hfrontier ▸ h.traversed).take
      rwa [Problem.offspring, if_pos hcap, List.append_nil, ← hqueue] at htake
    · simpa [or_imp, forall_and, hgoal] using h.goalless
    · simpa [or_imp, forall_and, hcap] using h.faultless
    · simp [h.limited_iff, hcap, or_and_right, exists_or]
  | @expanded node rest queue hfrontier hgoal hcap hspent hfaultless hqueue =>
    refine ⟨node, by rw [next?, hfrontier, List.head?_cons], ?_, ?_, ?_, ?_⟩
    · have htake := (hfrontier ▸ h.traversed).take
      rwa [Problem.offspring, if_neg (by simp [hcap]), ← hqueue] at htake
    · simpa [or_imp, forall_and, hgoal] using h.goalless
    · simpa [or_imp, forall_and, hfaultless] using h.faultless
    · simp [h.limited_iff, hcap, or_and_right, exists_or]

/-- A search that comes up has taken up one node in each of the turns before. -/
lemma Passed.after {before : List Search} (h : Passed p limits before s) :
    After p limits (before.filterMap next?) s ∧
      (before.filterMap next?).length = before.length := by
  induction h with
  | start => exact ⟨.start p limits, rfl⟩
  | @turn before s next _ hstep ih =>
    obtain ⟨hafter, hlength⟩ := ih
    obtain ⟨node, hnode, hnext⟩ := hafter.turn (hstep ▸ turned_step p limits s)
    rw [filterMap_concat, hnode]
    exact ⟨hnext, by rw [List.length_append, List.length_append, hlength]; rfl⟩

lemma Reached.exists_passed (h : Reached p limits s) : ∃ before, Passed p limits before s := by
  induction h with
  | start => exact ⟨[], .start⟩
  | @turn s next _ hstep ih =>
    obtain ⟨before, hpassed⟩ := ih
    exact ⟨before ++ [s], hpassed.turn hstep⟩

lemma Reached.exists_after (h : Reached p limits s) : ∃ visited, After p limits visited s := by
  obtain ⟨before, hpassed⟩ := h.exists_passed
  exact ⟨before.filterMap next?, hpassed.after.1⟩

lemma Reached.hasNode (h : Reached p limits s) {n : Node} (hn : n ∈ s.frontier.toList) :
    p.HasNode n := by
  obtain ⟨visited, hafter⟩ := h.exists_after
  exact hafter.hasNode (List.mem_append_right _ hn)

/-- The levels of the nodes taken up and of those that wait never fall. -/
lemma After.pairwise_level {visited : List Node} (h : After p limits visited s) :
    (visited ++ s.frontier.toList).Pairwise fun n n' => n.level ≤ n'.level := by
  obtain ⟨k, hk⟩ := h.exists_sweep
  exact (pairwise_level_sweep p k).sublist hk.sublist

end Search

open Search

variable {p : Problem} {limits : SearchLimits} {fuel : ℕ}

/-! ## Whole runs -/

/-- A run that ends does so in a turn from a situation as described. -/
lemma exists_after_of_search? {v : Except Fault Report} (h : p.search? limits fuel = some v) :
    ∃ visited s, After p limits visited s ∧ Turned p limits s (.done v) := by
  obtain ⟨before, s, hpassed, hdone, -⟩ := exists_passed_of_search? h
  exact ⟨_, s, hpassed.after.1, hdone ▸ turned_step p limits s⟩

/-- A search that ends with a fault got it from a move at a node of the tree. -/
lemma exists_apply_of_search?_error {fault : Fault}
    (h : p.search? limits fuel = some (.error fault)) :
    ∃ n m, p.HasNode n ∧ m ∈ (n.survey p.domain.actions).moves ∧ n.apply m = .error fault := by
  obtain ⟨visited, s, hafter, hturn⟩ := exists_after_of_search? h
  cases hturn with
  | @faulty node rest fault hfrontier _ _ _ hfault =>
    obtain ⟨m, hmove, happly⟩ := exists_of_fault?_brood hfault
    exact ⟨node, m, hafter.hasNode (by simp [hfrontier]), hmove, happly⟩

lemma search?_ne_error_of_faultless (h : ∀ n, p.HasNode n → n.Faultless p.domain.actions)
    (limits : SearchLimits) (fuel : ℕ) (fault : Fault) :
    p.search? limits fuel ≠ some (.error fault) := by
  intro hsearch
  obtain ⟨n, m, hn, hm, happly⟩ := exists_apply_of_search?_error hsearch
  obtain ⟨child, hchild⟩ := h n hn m hm
  simp [happly] at hchild

lemma exists_report_of_faultless (hfaultless : ∀ n, p.HasNode n → n.Faultless p.domain.actions)
    {v : Except Fault Report} (h : p.search? limits fuel = some v) : ∃ report, v = .ok report := by
  cases v with
  | error fault => exact absurd h (search?_ne_error_of_faultless hfaultless limits fuel fault)
  | ok report => exact ⟨report, rfl⟩

/-- A node that is found was the next to be taken up. -/
lemma exists_after_of_found {report : Report} {node : Node}
    (h : p.search? limits fuel = some (.ok report)) (hfound : report.outcome = .found node) :
    ∃ visited s rest, After p limits visited s ∧ s.frontier.toList = node :: rest ∧
      node.state.Satisfies p.goal := by
  obtain ⟨visited, s, hafter, hturn⟩ := exists_after_of_search? h
  cases hturn with
  | exhausted => simp at hfound
  | spent => simp at hfound
  | @found node' rest hfrontier hgoal =>
    obtain rfl : node' = node := by simpa using hfound
    exact ⟨visited, s, rest, hafter, hfrontier, hgoal⟩

/-- Without a limit on expansions, a search that finds nothing ends when no node is waiting
any more. -/
lemma exists_after_of_exhausted {report : Report} {e : Exhaustion}
    (h : p.search? limits fuel = some (.ok report)) (hout : report.outcome = .exhausted e)
    (hlimit : limits.maxExpansions = none) :
    ∃ visited s, After p limits visited s ∧ s.frontier.toList = [] ∧
      e = if s.limited then .limitReached else .noPlan := by
  obtain ⟨visited, s, hafter, hturn⟩ := exists_after_of_search? h
  cases hturn with
  | exhausted hempty => exact ⟨visited, s, hafter, hempty, by simpa using hout.symm⟩
  | found => simp at hout
  | spent _ _ _ hspent => simp [SearchLimits.spent_eq_false hlimit] at hspent

/-- A run that does not end takes up a node in each turn. -/
lemma exists_after_of_search?_eq_none (h : p.search? limits fuel = none) :
    ∃ visited s, After p limits visited s ∧ visited.length = fuel := by
  obtain ⟨before, s, hpassed, -, hlength⟩ := exists_passed_of_search?_eq_none h
  obtain ⟨hafter, hvisited⟩ := hpassed.after
  exact ⟨_, s, hafter, hvisited.trans hlength⟩

/-- A search of a tree that ends comes to an end, whether or not it meets a fault. -/
lemma terminates_of_tier_eq_nil {k : ℕ}
    (h : ∀ j, k ≤ j → tier (p.offspring limits) p.root j = []) : p.Terminates limits := by
  -- More turns than the tree has nodes.
  refine ⟨(sweep (p.offspring limits) p.root k).length + 1, ?_⟩
  cases hv : p.search? limits _ with
  | some v => exact ⟨v, rfl⟩
  | none =>
    obtain ⟨visited, s, hafter, hlength⟩ := exists_after_of_search?_eq_none hv
    obtain ⟨j, hj⟩ := hafter.traversed.exists_sweep
    have hle := hj.length_le.trans (length_sweep_le_of_tier_eq_nil h j)
    rw [List.length_append] at hle
    omega

/-- A run does not go on beyond a tier with a goal node. -/
lemma search?_ne_none_of_goal {d : ℕ} {n : Node} (hn : n ∈ tier (p.offspring limits) p.root d)
    (hgoal : n.state.Satisfies p.goal) :
    p.search? limits (sweep (p.offspring limits) p.root (d + 1)).length ≠ none := by
  intro hnone
  -- As many nodes have been taken up as there are down to the goal node, but not that one.
  obtain ⟨visited, s, hafter, hlength⟩ := exists_after_of_search?_eq_none hnone
  have hlt := hafter.traversed.length_lt_sweep hn fun hvisited => hafter.goalless n hvisited hgoal
  omega

end ClassicalPlanning
