/-
The counts of a search.

A search counts the nodes that it expands and the children that it generates, and it keeps the
level of the node taken up last and the level of the deepest one.  `Search.Tallied` says what these
are in terms of the nodes themselves: as long as the search goes on, the nodes that it has expanded
are those above the level cap, all others have been passed over, and since levels never fall, the
node taken up last is the deepest.

The main results are `Passed.tallied`, that every search that comes up is tallied, and
`length_expanded_le`, that no more nodes are expanded than the limit allows, also by a search that
ends with a fault.
-/
import ClassicalPlanning.Proofs.Search.Run

namespace ClassicalPlanning

namespace Search

/-- The counts of a search are those of the nodes that it has taken up and expanded. -/
structure Tallied (p : Problem) (limits : SearchLimits) (visited expanded : List Node)
    (s : Search) : Prop where
  /-- The nodes above the level cap have been expanded. -/
  expanded_eq : expanded = visited.filter fun n => !limits.caps n.level
  /-- They have been counted. -/
  expanded_count : s.stats.expanded = expanded.length
  /-- Their children have been counted. -/
  generated_count :
    s.stats.generated = (expanded.map fun n => (n.children p.domain.actions).length).sum
  /-- The level of the node taken up last is known. -/
  level?_eq : s.level? = visited.getLast?.map Node.level
  /-- No node has been deeper than this one. -/
  depth_eq : s.stats.depth = s.level?.getD 0
  /-- The limit on expansions has been kept. -/
  expanded_le : ∀ e, limits.maxExpansions = some e → s.stats.expanded ≤ e

variable {p : Problem} {limits : SearchLimits} {s next : Search} {visited expanded : List Node}
  {node : Node} {rest : List Node}

/-! ## The next node -/

lemma append_next?_prefix_append (visited : List Node) (s : Search) :
    visited ++ s.next?.toList <+: visited ++ s.frontier.toList := by
  rw [next?, ← List.take_one, List.prefix_append_right_inj]
  exact List.take_prefix 1 s.frontier.toList

/-- At least the root has been taken up, or it comes up now. -/
lemma After.append_next?_ne_nil (h : After p limits visited s) :
    visited ++ s.next?.toList ≠ [] := by
  intro hnil
  obtain ⟨rfl, hnext⟩ := List.append_eq_nil_iff.mp hnil
  have happend := h.traversed.append_eq
  rw [List.flatMap_nil, List.nil_append] at happend
  simp [next?, happend] at hnext

lemma next?_eq_some (hfrontier : s.frontier.toList = node :: rest) : s.next? = some node := by
  rw [next?, hfrontier, List.head?_cons]

/-- A goal node, a node at the level cap, and a node for which no expansion is left, is not
expanded. -/
lemma expands?_eq_none (hfrontier : s.frontier.toList = node :: rest)
    (h : node.state.Satisfies p.goal ∨ limits.caps node.level = true ∨
      limits.spent s.stats.expanded = true) : s.expands? p limits = none := by
  rw [expands?, next?_eq_some hfrontier, Option.filter_some, if_neg]
  rcases h with h | h | h <;> simp [h]

lemma expands?_eq_some_iff : s.expands? p limits = some node ↔
    s.next? = some node ∧ ¬ node.state.Satisfies p.goal ∧ limits.caps node.level = false ∧
      limits.spent s.stats.expanded = false := by
  simp [expands?, Option.filter_eq_some_iff]

/-- No node taken up before is deeper than the next one. -/
lemma Tallied.depth_le (h : Tallied p limits visited expanded s) (hafter : After p limits visited s)
    (hfrontier : s.frontier.toList = node :: rest) : s.stats.depth ≤ node.level := by
  rw [h.depth_eq, h.level?_eq]
  cases hlast : visited.getLast? with
  | none => exact Nat.zero_le _
  | some last =>
    have hpairwise := hafter.pairwise_level
    rw [hfrontier, List.pairwise_append] at hpairwise
    exact hpairwise.2.2 last (List.mem_of_getLast? hlast) node List.mem_cons_self

/-- The depth is the greatest level of the nodes taken up. -/
lemma Tallied.depth_le_iff (h : Tallied p limits visited expanded s)
    (hafter : After p limits visited s) {m : ℕ} :
    s.stats.depth ≤ m ↔ ∀ n ∈ visited, n.level ≤ m := by
  have hlevels := (List.pairwise_append.mp hafter.pairwise_level).1
  rw [h.depth_eq, h.level?_eq]
  rcases List.eq_nil_or_concat' visited with rfl | ⟨front, last, rfl⟩
  · simp
  · rw [List.getLast?_concat, Option.map_some, Option.getD_some]
    constructor
    · intro hle n hn
      rcases List.mem_append.mp hn with hn | hn
      · exact ((List.pairwise_append.mp hlevels).2.2 n hn last List.mem_cons_self).trans hle
      · exact List.mem_singleton.mp hn ▸ hle
    · exact fun hle => hle last (by simp)

/-! ## Turns -/

/-- A turn keeps the counts. -/
lemma Tallied.turn (h : Tallied p limits visited expanded s) (hafter : After p limits visited s)
    (hturn : Turned p limits s (.more next)) :
    Tallied p limits (visited ++ s.next?.toList) (expanded ++ (s.expands? p limits).toList)
      next := by
  cases hturn with
  | @capped node rest queue hfrontier hgoal hcap hqueue =>
    rw [next?_eq_some hfrontier, expands?_eq_none hfrontier (.inr (.inl hcap))]
    have hdepth := h.depth_le hafter hfrontier
    refine ⟨?_, ?_, ?_, ?_, ?_, h.expanded_le⟩
    · simp [h.expanded_eq, hcap]
    · simpa using h.expanded_count
    · simpa using h.generated_count
    · simp
    · simpa using hdepth
  | @expanded node rest queue hfrontier hgoal hcap hspent hfaultless hqueue =>
    have hexpands : s.expands? p limits = some node :=
      expands?_eq_some_iff.mpr ⟨next?_eq_some hfrontier, hgoal, hcap, hspent⟩
    rw [next?_eq_some hfrontier, hexpands]
    have hdepth := h.depth_le hafter hfrontier
    refine ⟨?_, ?_, ?_, ?_, ?_, fun e he => ?_⟩
    · simp [h.expanded_eq, hcap]
    · simp [h.expanded_count]
    · simp [h.generated_count]
    · simp
    · simpa using hdepth
    · have hlt : s.stats.expanded < e := by simpa [SearchLimits.spent, he] using hspent
      exact hlt

lemma Passed.tallied {before : List Search} (h : Passed p limits before s) :
    Tallied p limits (before.filterMap next?) (before.filterMap (expands? p limits)) s := by
  induction h with
  | start => exact ⟨rfl, rfl, rfl, rfl, rfl, fun e _ => Nat.zero_le e⟩
  | @turn before s next hpassed hstep ih =>
    rw [filterMap_concat, filterMap_concat]
    exact ih.turn hpassed.after.1 (hstep ▸ turned_step p limits s)

end Search

open Search

variable {p : Problem} {limits : SearchLimits}

/-! ## Whole runs -/

section Runs

variable {fuel : ℕ} {n : Node}

lemma mem_visited_of_mem_expanded (h : n ∈ p.expanded limits fuel) :
    n ∈ p.visited limits fuel := by
  obtain ⟨s, hs, hn⟩ := List.mem_filterMap.mp h
  exact List.mem_filterMap.mpr ⟨s, hs, (expands?_eq_some_iff.mp hn).1⟩

lemma hasNode_of_mem_visited (h : n ∈ p.visited limits fuel) : p.HasNode n := by
  obtain ⟨before, s, hpassed, hcourse | hcourse⟩ := exists_passed_course p limits fuel
  · rw [Problem.visited, hcourse, filterMap_concat] at h
    exact hpassed.after.1.hasNode ((append_next?_prefix_append _ s).subset h)
  · rw [Problem.visited, hcourse] at h
    exact hpassed.after.1.hasNode (List.mem_append_left _ h)

/-- Whatever a search creates belongs to the search tree, once it is taken up. -/
lemma hasNode_of_mem_created (h : n ∈ p.created limits fuel) : p.HasNode n.takeUp := by
  rcases List.mem_cons.mp h with rfl | h
  · exact hasNode_root p
  · obtain ⟨parent, hparent, hn⟩ := List.mem_flatMap.mp h
    obtain ⟨m, hm, happly⟩ := exists_of_mem_children_brood hn
    exact hasNode_of_mem_children (hasNode_of_mem_visited (mem_visited_of_mem_expanded hparent))
      (mem_children.mpr ⟨m, hm, n, happly, rfl⟩)

end Runs

/-- The limit on expansions is kept by every run. -/
lemma length_expanded_le {e : ℕ} (he : limits.maxExpansions = some e) (fuel : ℕ) :
    (p.expanded limits fuel).length ≤ e := by
  obtain ⟨before, s, hpassed, hcourse | hcourse⟩ := exists_passed_course p limits fuel
  · have hcount := hpassed.tallied.expanded_count
    rw [Problem.expanded, hcourse, filterMap_concat, List.length_append, ← hcount]
    -- In its last turn a run expands a node only if the limit allows one more.
    cases hexpands : s.expands? p limits with
    | none => exact hpassed.tallied.expanded_le e he
    | some node =>
      obtain ⟨-, -, -, hspent⟩ := expands?_eq_some_iff.mp hexpands
      have hlt : s.stats.expanded < e := by simpa [SearchLimits.spent, he] using hspent
      exact hlt
  · rw [Problem.expanded, hcourse, ← hpassed.tallied.expanded_count]
    exact hpassed.tallied.expanded_le e he

end ClassicalPlanning
