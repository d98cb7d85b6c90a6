/-
Breadth-first search.

The search keeps a queue of nodes, the root first.  It takes up the node at the head of
the queue, tests it for the goal and, if it is none, puts its children at the end.  Every
application of an action gives a node of its own: a state reached in two ways is expanded
twice.

Nodes at the level cap are tested but not expanded; when one of them could have been
expanded into something, the search is no longer exhaustive.  Once the expansions are
spent, the search stops at the first node that it would have to expand.

A problem may have infinitely many nodes, so a search need not end.  `Search.step` is one
turn, `Search.run` as many turns as it is given, and a run that has not ended by then has
no verdict.
-/
import ClassicalPlanning.Search.Limits
import ClassicalPlanning.Search.Node
import ClassicalPlanning.Search.Queue

namespace ClassicalPlanning

/-- What a search has done. -/
structure Search.Stats where
  /-- The number of nodes whose children were generated. -/
  expanded : Nat := 0
  /-- The number of children generated. -/
  generated : Nat := 0
  /-- The level of the deepest node taken up. -/
  depth : Nat := 0
deriving DecidableEq, Repr

/-- How a search ended. -/
inductive Search.Outcome where
  /-- The first node taken up whose state satisfies the goal. -/
  | found (node : Node)
  /-- Without a goal node. -/
  | exhausted (outcome : Exhaustion)
deriving DecidableEq, Repr

/-- The result of a search that ended. -/
structure Search.Report where
  /-- How it ended. -/
  outcome : Search.Outcome
  /-- What it did. -/
  stats : Search.Stats
deriving DecidableEq, Repr

/-- The node of the goal, if one was found. -/
def Search.Report.node? (r : Search.Report) : Option Node :=
  match r.outcome with
  | .found node => some node
  | .exhausted _ => none

/-- A search under way. -/
structure Search where
  /-- The nodes to be taken up. -/
  frontier : Queue Node
  /-- What has been done. -/
  stats : Search.Stats := {}
  /-- The level of the node taken up last. -/
  level? : Option Nat := none
  /-- Whether a limit has kept something from being looked at. -/
  limited : Bool := false

/-- The children that moves give at a node, with the events of generating them, up to the
first move that is at fault. -/
structure Brood where
  /-- The children, in the order of the moves. -/
  children : List Node := []
  /-- The events of generating them. -/
  events : List Event := []
  /-- The fault that ended the generation. -/
  fault? : Option Fault := none

/-- The children that the moves give at the node. -/
def Node.brood (n : Node) : List Move → Brood
  | [] => {}
  | m :: ms =>
    match n.apply m with
    | .error fault => { fault? := some fault }
    | .ok child =>
      let rest := n.brood ms
      { rest with
        children := child :: rest.children
        events := appliedEvent m child :: rest.events }

namespace Search

/-- What one turn leads to. -/
inductive Turn where
  /-- The search goes on. -/
  | more (search : Search)
  /-- The search has ended, with a report or a fault. -/
  | done (verdict : Except Fault Search.Report)

/-- The search at its start: the root waits to be taken up. -/
def start (p : Problem) : Search where
  frontier := .singleton (Node.root p).takeUp

/-- Ends a search that has not found a goal node. -/
def finish (stats : Search.Stats) (limited : Bool) : List Event × Turn :=
  let outcome := if limited then Exhaustion.limitReached else .noPlan
  ([.exhausted outcome stats.expanded stats.generated],
    .done (.ok { outcome := .exhausted outcome, stats }))

/-- Expands a node: a fault in one of its moves ends the search. -/
def expand (p : Problem) (node : Node) (frontier : Queue Node) (stats : Search.Stats)
    (limited : Bool) : List Event × Turn :=
  let survey := node.survey p.domain.actions
  let brood := node.brood survey.moves
  let looked := survey.events node.state.length ++ brood.events
  match brood.fault? with
  | some fault => (looked, .done (.error fault))
  | none =>
    let frontier := frontier.pushAll (brood.children.map Node.takeUp)
    let stats := { stats with
      expanded := stats.expanded + 1
      generated := stats.generated + brood.children.length }
    (looked ++ [.expanded node.level frontier.size],
      .more { frontier, stats, level? := some node.level, limited })

/-- Takes up a node, with the nodes behind it in the queue. -/
def visit (p : Problem) (limits : SearchLimits) (node : Node) (frontier : Queue Node)
    (stats : Search.Stats) (limited : Bool) : List Event × Turn :=
  if node.state.Satisfies p.goal then
    ([.goalReached node.level stats.expanded stats.generated],
      .done (.ok { outcome := .found node, stats }))
  else if limits.caps node.level then
    let survey := node.survey p.domain.actions
    (survey.events node.state.length,
      .more { frontier, stats, level? := some node.level
              limited := limited || !survey.moves.isEmpty })
  else if limits.spent stats.expanded then
    finish stats true
  else
    expand p node frontier stats limited

/-- One turn of the search, with the events that it gives rise to. -/
def step (p : Problem) (limits : SearchLimits) (s : Search) : List Event × Turn :=
  match s.frontier.pop? with
  | none => finish s.stats s.limited
  | some (node, frontier) =>
    let entered :=
      if limits.logProgress ∧ s.level? ≠ some node.level then
        [Event.levelEntered node.level (frontier.size + 1)]
      else []
    let stats := { s.stats with depth := max s.stats.depth node.level }
    let (events, turn) := visit p limits node frontier stats s.limited
    (entered ++ events, turn)

/-- A search after some turns. -/
structure Run where
  /-- How the search ended, if it has. -/
  verdict? : Option (Except Fault Search.Report)
  /-- The events so far, oldest first. -/
  log : Array Event

/-- Lets a search go on for at most `fuel` turns, adding to the log. -/
def run (p : Problem) (limits : SearchLimits) (fuel : Nat) (s : Search) (log : Array Event) : Run :=
  match fuel with
  | 0 => { verdict? := none, log }
  | fuel + 1 =>
    match step p limits s with
    | (events, .more next) => run p limits fuel next (log ++ events)
    | (events, .done verdict) => { verdict? := some verdict, log := log ++ events }

end Search

/-- Searches for a plan, for at most `fuel` turns. -/
def Problem.search (p : Problem) (limits : SearchLimits) (fuel : Nat) : Search.Run :=
  Search.run p limits fuel (.start p) #[]

/-- How the search for a plan ended, if it ended within `fuel` turns. -/
def Problem.search? (p : Problem) (limits : SearchLimits) (fuel : Nat) :
    Option (Except Fault Search.Report) :=
  (p.search limits fuel).verdict?

end ClassicalPlanning
