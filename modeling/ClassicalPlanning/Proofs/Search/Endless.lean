/-
Searches that do not come to an end by themselves.

If some move can be made at every node, and no move is at fault, then the tree has no end.  A
search that takes in the children of every node that it takes up always has a node waiting, so
when none is waiting any more, the level cap has kept some node from being expanded.  Whatever
the limits, such a search never reports that there is no plan.

This is the main result, `search_of_endless`.
-/
import ClassicalPlanning.Proofs.Search.Run

namespace ClassicalPlanning

/-- At every node a move can be made, and none is at fault. -/
structure Problem.Endless (p : Problem) : Prop where
  faultless : ∀ n, p.HasNode n → n.Faultless p.domain.actions
  moves_ne_nil : ∀ n, p.HasNode n → (n.survey p.domain.actions).moves ≠ []

/-- However a search is limited, if it ends, then with a goal node or at a limit. -/
def Problem.EndsAtGoalOrLimit (p : Problem) : Prop :=
  ∀ limits fuel verdict, p.search? limits fuel = some verdict → ∃ report, verdict = .ok report ∧
    ((∃ node, report.outcome = .found node) ∨ report.outcome = .exhausted .limitReached)

lemma length_le_length_flatMap {α β : Type} {l : List α} {f : α → List β}
    (h : ∀ a ∈ l, f a ≠ []) : l.length ≤ (l.flatMap f).length := by
  induction l with
  | nil => simp
  | cons a l ih =>
    have hhead : 0 < (f a).length := List.length_pos_iff.mpr (h a List.mem_cons_self)
    have htail := ih fun b hb => h b (List.mem_cons_of_mem a hb)
    simp only [List.flatMap_cons, List.length_append, List.length_cons]
    omega

section Endless

variable {p : Problem} {limits : SearchLimits}

lemma Problem.Endless.children_ne_nil (hp : p.Endless) {n : Node} (hn : p.HasNode n) :
    n.children p.domain.actions ≠ [] := by
  obtain ⟨m, hm⟩ := List.exists_mem_of_ne_nil _ (hp.moves_ne_nil n hn)
  obtain ⟨child, hchild⟩ := hp.faultless n hn m hm
  exact List.ne_nil_of_mem (mem_children.mpr ⟨m, hm, child, hchild, rfl⟩)

/-- A search comes to an end of the tree only if the cap has cut it off. -/
lemma Search.After.limited_of_endless (hp : p.Endless) {visited : List Node} {s : Search}
    (h : After p limits visited s) (hempty : s.frontier.toList = []) : s.limited = true := by
  by_contra hlimited
  rw [h.limited_iff] at hlimited
  have hnode : ∀ n ∈ visited, p.HasNode n := fun n hn => h.hasNode (List.mem_append_left _ hn)
  have hoffspring : ∀ n ∈ visited, p.offspring limits n ≠ [] := by
    intro n hn
    have hcap : ¬ limits.caps n.level = true := fun hcap =>
      hlimited ⟨n, hn, hcap, hp.moves_ne_nil n (hnode n hn)⟩
    rw [Problem.offspring, if_neg hcap]
    exact hp.children_ne_nil (hnode n hn)
  -- The nodes taken up are the root and their own children, which are at least as many.
  have hall : visited = p.root :: visited.flatMap (p.offspring limits) := by
    simpa [hempty] using h.traversed.append_eq
  have hlength := congrArg List.length hall
  have hle := length_le_length_flatMap hoffspring
  rw [List.length_cons] at hlength
  omega

open Search in
/-- Where there is always a move, a search that ends has found a goal node or met a limit. -/
theorem search_of_endless (hp : p.Endless) : p.EndsAtGoalOrLimit := by
  intro limits fuel v h
  obtain ⟨visited, s, hafter, hturn⟩ := exists_after_of_search? h
  cases hturn with
  | exhausted hempty =>
    exact ⟨_, rfl, Or.inr (by rw [hafter.limited_of_endless hp hempty, if_pos rfl])⟩
  | @found node => exact ⟨_, rfl, Or.inl ⟨node, rfl⟩⟩
  | spent => exact ⟨_, rfl, Or.inr rfl⟩
  | faulty => exact absurd h (search?_ne_error_of_faultless hp.faultless limits fuel _)

end Endless

end ClassicalPlanning
