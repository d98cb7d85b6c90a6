/-
When there is no plan.

An action can be applied in a state in as many ways as there are assignments of places of
the state to its preconditions under which the facts there fill the preconditions.  The
matcher does not try all of them: of the assignments that use the same facts it keeps one.
So a search may find no plan although the goal can be reached, as a race shows whose
finish the search sees in one way only (`race_reaches_goal`).

Where the roles of the facts do not matter, one way stands for all: if a search without
limits reports that there is no plan, such applications cannot reach the goal.  This is the
main result, `not_satisfies_of_noPlan`.
-/
import ClassicalPlanning.Proofs.Race
import ClassicalPlanning.Proofs.Search.Likeness
import ClassicalPlanning.Proofs.Walk
import Mathlib.Data.List.FinRange
import Mathlib.Logic.Relation

namespace ClassicalPlanning

/-! ## Applications by places -/

/-- The facts of the state at the other places. -/
def State.without (s : State) (places : List (Fin s.length)) : State :=
  ((List.finRange s.length).filter (· ∉ places)).map s.get

/-- The action leads from the state `s` to the state `t` by the facts `ms`: they are at some
places of `s`, all different, they fill the preconditions, and they are replaced by the
effects. -/
def Action.Leads (a : Action) (s : State) (ms effects : List Literal) (t : State) : Prop :=
  ∃ places : List (Fin s.length), places.Nodup ∧ places.map s.get = ms ∧ a.Yields ms effects ∧
    t = s.without places ++ effects

/-- Some applications of the actions lead from one state to another. -/
def Reaches (actions : List Action) : State → State → Prop :=
  Relation.ReflTransGen fun s t => ∃ a ∈ actions, ∃ ms effects, a.Leads s ms effects t

/-- Some applications of the actions lead from one state to another, and in none of them do
the roles of the facts matter. -/
def ReachesNeutrally (actions : List Action) : State → State → Prop :=
  Relation.ReflTransGen fun s t =>
    ∃ a ∈ actions, ∃ ms effects, a.Leads s ms effects t ∧ a.NeutralAt ms effects

/-- Where no two preconditions of an action have the same polarity and predicate, the roles of
facts never matter. -/
lemma reachesNeutrally_of_nodup_heads {actions : List Action} {s t : State}
    (hheads : ∀ a ∈ actions, (a.preconditions.map Literal.head).Nodup) (h : Reaches actions s t) :
    ReachesNeutrally actions s t := by
  refine Relation.ReflTransGen.mono ?_ s t h
  rintro s t ⟨a, ha, ms, effects, hleads⟩
  obtain ⟨-, -, -, hyields, -⟩ := id hleads
  exact ⟨a, ha, ms, effects, hleads, neutralAt_of_nodup_heads (hheads a ha) hyields⟩

/-- The facts at some places and those at the others are all the facts. -/
lemma perm_map_append_without {s : State} {places : List (Fin s.length)} (h : places.Nodup) :
    (places.map s.get ++ s.without places).Perm s := by
  have hplaces : ((List.finRange s.length).filter (· ∈ places)).Perm places := by
    refine (List.perm_ext_iff_of_nodup ((List.nodup_finRange _).filter _) h).mpr fun i => ?_
    simp
  have hsplit := (hplaces.symm.append_right _).trans
    (List.filter_append_perm (· ∈ places) (List.finRange s.length))
  have hmap := hsplit.map s.get
  rw [List.map_append, List.map_get_finRange] at hmap
  simpa [State.without] using hmap

/-! ## The search follows -/

section Following

variable {p : Problem} {actions : List Action} {n : Node} {s t : State} {a : Action}
  {ms effects : List Literal}

/-- At a node whose state has the content of `s`, the search follows an action that leads
from `s` to `t`, if the roles of the facts do not matter. -/
lemma exists_child_of_leads (hfaultless : n.Faultless actions) (ha : a ∈ actions)
    (hcontent : SameContent s n.state) (hleads : a.Leads s ms effects t)
    (hneutral : a.NeutralAt ms effects) :
    ∃ child ∈ n.children actions, SameContent t child.state := by
  obtain ⟨places, hnodup, rfl, hyields, rfl⟩ := hleads
  have hfacts : SameContent (places.map s.get ++ s.without places) n.state :=
    (SameContent.of_perm (perm_map_append_without hnodup)).trans hcontent
  exact exists_child_of_yields hfaultless ha hyields hfacts hneutral

/-- If no move is at fault, the search tree has a node for every state that can be reached by
applications in which the roles of the facts do not matter. -/
lemma exists_node_of_reachesNeutrally
    (hfaultless : ∀ n, p.HasNode n → n.Faultless p.domain.actions)
    (h : ReachesNeutrally p.domain.actions p.state t) :
    ∃ n, p.HasNode n ∧ SameContent t n.state := by
  induction h with
  | refl => exact ⟨p.root, hasNode_root p, .refl p.state⟩
  | tail _ hstep ih =>
    obtain ⟨n, hn, hcontent⟩ := ih
    obtain ⟨a, ha, ms, effects, hleads, hneutral⟩ := hstep
    obtain ⟨child, hchild, hcontent'⟩ :=
      exists_child_of_leads (hfaultless n hn) ha hcontent hleads hneutral
    exact ⟨child, hasNode_of_mem_children hn hchild, hcontent'⟩

end Following

/-- If a search without limits reports that there is no plan, the goal cannot be reached from
the initial state by applications in which the roles of the facts do not matter. -/
theorem not_satisfies_of_noPlan {p : Problem} {limits : SearchLimits} {fuel : ℕ}
    {report : Search.Report} (hlevel : limits.maxLevel = none)
    (hexpansions : limits.maxExpansions = none) (h : p.search? limits fuel = some (.ok report))
    (hout : report.outcome = .exhausted .noPlan) {t : State}
    (ht : ReachesNeutrally p.domain.actions p.state t) :
    ¬ t.Satisfies p.goal := by
  obtain ⟨visited, s, hafter, hempty, -⟩ := exists_after_of_exhausted h hout hexpansions
  have hcaps : ∀ level, limits.caps level = false := fun level => by
    simp [SearchLimits.caps, hlevel]
  have hvisited : ∀ n, p.HasNode n → n ∈ visited := fun n hn =>
    hafter.mem_visited hempty hn fun j _ => hcaps j
  obtain ⟨n, hn, hcontent⟩ := exists_node_of_reachesNeutrally
    (fun n hn => hafter.faultless n (hvisited n hn) (hcaps n.level)) ht
  intro hgoal
  exact hafter.goalless n (hvisited n hn) (hcontent.satisfies hgoal)

/-- On a line of three places the walker gets to the second place, but never to a fourth
one. -/
theorem walk_not_satisfies_of_noPlan : ∃ t : State,
    ReachesNeutrally [Walk.step] (Walk.start ["a", "b", "c"]) t ∧
      t.Holds (Walk.here (Walk.place "b")) ∧ ¬ t.Satisfies [Walk.here (Walk.place "z")] := by
  obtain ⟨report, hsearch, hout⟩ : ∃ report : Search.Report,
      (Walk.problem ["a", "b", "c"] "z").search? {} 4 = some (.ok report) ∧
        report.outcome = .exhausted .noPlan := ⟨_, rfl, rfl⟩
  obtain ⟨ms, effects, t, hleads, hholds⟩ : ∃ ms effects t,
      Walk.step.Leads (Walk.start ["a", "b", "c"]) ms effects t ∧
        t.Holds (Walk.here (Walk.place "b")) :=
    ⟨_, _, _, ⟨[(0 : Fin 3), (1 : Fin 3)], by decide, rfl, ⟨rfl, _, rfl, rfl⟩, rfl⟩,
      by decide +kernel⟩
  have hreaches : ReachesNeutrally [Walk.step] (Walk.start ["a", "b", "c"]) t :=
    reachesNeutrally_of_nodup_heads (by decide)
      (.single ⟨Walk.step, List.mem_singleton_self _, ms, effects, hleads⟩)
  exact ⟨t, hreaches, hholds, not_satisfies_of_noPlan rfl rfl hsearch hout hreaches⟩

/-! ## A race -/

/-- All literals of the problem are well typed, and the free variables of the effects of an
action occur in its preconditions. -/
def Problem.WellFormed (p : Problem) : Prop :=
  (∀ l ∈ p.state ++ p.goal, l.WellTyped) ∧ ∀ a ∈ p.domain.actions,
    (∀ l ∈ a.preconditions ++ a.effects, l.WellTyped) ∧
      ∀ l ∈ a.effects, ∀ v ∈ l.arguments, v.value = none →
        ∃ m ∈ a.preconditions, v ∈ m.arguments

/-- The second runner can win, but a search without limits reports that there is no plan:
of the two ways to assign the runners to the preconditions it sees only the one in which the
first runner wins. -/
theorem race_reaches_goal : Race.problem.WellFormed ∧
    (∃ report : Search.Report, Race.problem.search? {} 3 = some (.ok report) ∧
      report.outcome = .exhausted .noPlan) ∧
    ∃ t : State, Reaches Race.problem.domain.actions Race.problem.state t ∧
      t.Satisfies Race.problem.goal := by
  refine ⟨?_, ⟨_, rfl, rfl⟩, ?_⟩
  · simp [Problem.WellFormed, Race.problem, Race.finish, Race.fact, Race.runner, Race.free,
      Literal.WellTyped, Variable.WellTyped, Variable.free, Variable.fill, or_imp, forall_and]
  · obtain ⟨ms, effects, t, hleads, hgoal⟩ : ∃ ms effects t,
        Race.finish.Leads Race.problem.state ms effects t ∧ t.Satisfies Race.problem.goal :=
      ⟨_, _, _, ⟨[(1 : Fin 2), (0 : Fin 2)], by decide, rfl, ⟨rfl, _, rfl, rfl⟩, rfl⟩,
        by decide +kernel⟩
    exact ⟨t, .single ⟨Race.finish, List.mem_singleton_self _, ms, effects, hleads⟩, hgoal⟩

end ClassicalPlanning
