/-
Execution of plans.

A plan is executed from a state by finding, for each of its steps, an action of that name
whose preconditions the facts of the step match, by taking these facts out of the state and
by adding the effects.  The plan of a node of the search tree is executable from the
initial state and leads to the state of the node, so a search that finds a goal node has
found a plan: this is the main result, `search_plan_executes`.
-/
import ClassicalPlanning.Proofs.Matching.Arrangement
import ClassicalPlanning.Proofs.Search.Run
import ClassicalPlanning.Proofs.Walk

namespace ClassicalPlanning

/-- The action leads from the state `s` to the state `t` when the given facts fill its
preconditions. -/
structure Action.Progresses (a : Action) (s : State) (matched : List Literal) (t : State) :
    Prop where
  /-- The state has all the facts, each as often as it is used. -/
  contains : s.Contains matched
  /-- The facts match the preconditions, one each; the state `t` is what remains without
  them, with the effects at its end. -/
  exists_effects : ∃ effects rest, a.Yields matched effects ∧ s.removeAll matched = .ok rest ∧
    t = rest ++ effects

/-- The steps lead from one state to another by actions of their names. -/
inductive Executes (actions : List Action) : State → List Plan.Step → State → Prop
  | nil (s : State) : Executes actions s [] s
  | cons {a : Action} {s t u : State} {matched : List Literal} {steps : List Plan.Step}
      (ha : a ∈ actions) (hstep : a.Progresses s matched t) (hsteps : Executes actions t steps u) :
      Executes actions s (⟨a.name, matched⟩ :: steps) u

lemma Executes.append {actions : List Action} {s t u : State} {steps steps' : List Plan.Step}
    (h : Executes actions s steps t) (h' : Executes actions t steps' u) :
    Executes actions s (steps ++ steps') u := by
  induction h with
  | nil => exact h'
  | cons ha hstep _ ih => exact .cons ha hstep (ih h')

/-! ## Moves -/

/-- A move leads from the state of a node to the state of the child, by its action. -/
lemma progresses_of_apply {actions : List Action} {n child : Node} {m : Move}
    (hm : m ∈ (n.survey actions).moves) (h : n.apply m = .ok child) :
    m.action.Progresses n.state m.grounding.matched child.state := by
  obtain ⟨effects, state, heffects, hstate, rfl⟩ := apply_eq_ok_iff.mp h
  obtain ⟨rest, hrest, rfl⟩ := State.successor_eq_ok_iff.mp hstate
  have hlength := (of_mem_groundings (mem_moves_survey.mp hm).2).1
  exact ⟨State.contains_of_sameContent (State.removeAll_eq_ok hrest).1,
    effects, rest, Action.yields_of_effectsFor hlength heffects, hrest, rfl⟩

@[simp] lemma plan_takeUp (n : Node) : n.takeUp.plan = n.plan := rfl

/-- The plan of a child is that of its parent with one more step. -/
lemma plan_of_apply {n child : Node} {m : Move} (h : n.apply m = .ok child) :
    child.plan.steps = n.plan.steps ++ [⟨m.action.name, m.grounding.matched⟩] := by
  obtain ⟨effects, state, -, -, rfl⟩ := apply_eq_ok_iff.mp h
  simp [Node.plan]

/-! ## Nodes -/

lemma level_eq_length_plan (n : Node) : n.level = n.plan.length := by
  rw [n.level_eq]
  simp [Plan.length, Node.plan]

/-- If the plan of a node leads to its state, the plans of its children do so too. -/
lemma executes_of_mem_children {actions : List Action} {s : State} {n child : Node}
    (h : Executes actions s n.plan.steps n.state) (hchild : child ∈ n.children actions) :
    Executes actions s child.plan.steps child.state := by
  obtain ⟨m, hm, next, hnext, rfl⟩ := mem_children.mp hchild
  rw [plan_takeUp, plan_of_apply hnext]
  exact h.append (.cons (mem_moves_survey.mp hm).1 (progresses_of_apply hm hnext) (.nil _))

/-- The plan of a node that a search has found leads from the initial state to the state of
the node, which satisfies the goal.  It has as many steps as the level of the node says, and
no more than the level cap allows. -/
theorem search_plan_executes {p : Problem} {limits : SearchLimits} {fuel : ℕ}
    {report : Search.Report} {node : Node} (h : p.search? limits fuel = some (.ok report))
    (hfound : report.outcome = .found node) :
    Executes p.domain.actions p.state node.plan.steps node.state ∧
      node.state.Satisfies p.goal ∧ node.level = node.plan.length ∧
      ∀ m, limits.maxLevel = some m → node.level ≤ m := by
  obtain ⟨visited, s, rest, hafter, hfrontier, hgoal⟩ := exists_after_of_found h hfound
  have hnode : node ∈ visited ++ s.frontier.toList := by simp [hfrontier]
  refine ⟨?_, hgoal, level_eq_length_plan node, fun m hm => hafter.level_le hm hnode⟩
  exact hafter.traversed.forall_mem (.nil p.state)
    (fun n hn child hchild => executes_of_mem_children hn (mem_offspring.mp hchild).2) node hnode

/-- The walker gets to the end of a line of three places in at most two steps. -/
theorem walk_plan_executes : ∃ (report : Search.Report) (node : Node),
    (Walk.problem ["a", "b", "c"] "c").search? { maxLevel := some 2 } 3 = some (.ok report) ∧
      report.outcome = .found node ∧
      Executes [Walk.step] (Walk.start ["a", "b", "c"]) node.plan.steps node.state ∧
      node.state.Satisfies [Walk.here (Walk.place "c")] ∧ node.plan.length ≤ 2 := by
  obtain ⟨report, node, hsearch, hfound⟩ : ∃ (report : Search.Report) (node : Node),
      (Walk.problem ["a", "b", "c"] "c").search? { maxLevel := some 2 } 3 = some (.ok report) ∧
        report.outcome = .found node := ⟨_, _, rfl, rfl⟩
  obtain ⟨hexecutes, hgoal, hlength, hcap⟩ := search_plan_executes hsearch hfound
  exact ⟨report, node, hsearch, hfound, hexecutes, hgoal, hlength ▸ hcap 2 rfl⟩

end ClassicalPlanning
