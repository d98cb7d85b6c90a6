/-
Nodes of the search tree.

A node is a state together with the way to it: the actions applied since the initial
state, newest first, each with the facts that it consumed.  Its level is the number of
those actions.  The children of a node are its applications of every action of the
domain, in the order of the domain, by every grounding, in the order of the groundings.
-/
import ClassicalPlanning.Language.Problem
import ClassicalPlanning.Progression
import ClassicalPlanning.Search.Event
import ClassicalPlanning.Search.Plan

namespace ClassicalPlanning

/-- An action with the facts that fill its preconditions. -/
structure Move where
  /-- The action. -/
  action : Action
  /-- The facts that fill its preconditions. -/
  grounding : Grounding
deriving DecidableEq, Repr

/-- A state of a problem, and how it came about. -/
structure Node where
  /-- The facts. -/
  state : State
  /-- The moves made since the initial state, newest first. -/
  path : List Move := []
  /-- The number of moves since the initial state. -/
  level : Nat := path.length
  /-- The number is that of the moves of the path. -/
  level_eq : level = path.length := by rfl
  /-- Whether a search has taken the node up. -/
  explored : Bool := false
deriving DecidableEq, Repr

/-- The groundings of some actions in a state, in the order of the actions. -/
abbrev Survey := List (Action × List Grounding)

namespace Survey

/-- The moves that were found, in the order in which they are tried. -/
def moves (survey : Survey) : List Move :=
  survey.flatMap fun (a, gs) => gs.map (Move.mk a)

/-- What is reported of a survey of a state with so many facts: for each action the
number of sets of facts that were looked at, and the number of groundings. -/
def events (facts : Nat) (survey : Survey) : List Event :=
  survey.map fun (a, gs) => .grounded a.name (binomial facts a.preconditions.length) gs.length

end Survey

namespace Node

/-- The node of the initial state. -/
def root (p : Problem) : Node :=
  { state := p.state }

/-- The move that led to the node; the root has none. -/
def lastMove? (n : Node) : Option Move :=
  n.path.head?

/-- The level of the parent; the root has none. -/
def parentLevel? (n : Node) : Option Nat :=
  n.path.tail?.map List.length

/-- The node, taken up by a search. -/
def takeUp (n : Node) : Node :=
  { n with explored := true }

/-- The plan that leads to the node. -/
def plan (n : Node) : Plan where
  steps := n.path.reverse.map fun m => { action := m.action.name, matched := m.grounding.matched }

/-- The groundings of each of the actions in the state of the node. -/
def survey (actions : List Action) (n : Node) : Survey :=
  actions.map fun a => (a, a.groundings n.state)

/-- The node that the move leads to. -/
def apply (n : Node) (m : Move) : Except Fault Node := do
  let effects ← m.action.effectsFor m.grounding
  let state ← n.state.successor m.action.name m.grounding.matched effects
  return { state
           path := m :: n.path
           level := n.level + 1
           level_eq := congrArg (· + 1) n.level_eq }

/-- The event of a move that led to the node `child`. -/
def appliedEvent (m : Move) (child : Node) : Event :=
  .applied m.action.name child.level child.state.length

end Node

end ClassicalPlanning
