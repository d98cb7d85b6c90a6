/-
Groundings of an action.

A grounding of an action in a state is a choice of facts, one for each precondition, that
match the preconditions under one substitution.  Every set of facts of the right size is
a candidate, in the order of their positions in the state; a candidate yields at most one
grounding, namely the first arrangement of its facts that matches, arrangements being
tried in the order of positions too.
-/
import ClassicalPlanning.Language.Action
import ClassicalPlanning.Matching.Basic
import ClassicalPlanning.Matching.Selection

namespace ClassicalPlanning

/-- The facts that fill the preconditions of an action: the fact at each place fills the
precondition at that place. -/
structure Grounding where
  /-- The facts, in the order of the preconditions. -/
  matched : List Literal
deriving DecidableEq, Repr

/-- The first arrangement of the facts that matches the patterns, one fact each, starting
from what is bound already. -/
def arrange? (patterns : List Literal) (facts : List Literal) (σ : Substitution) :
    Option (List Literal) :=
  match patterns with
  | [] => some []
  | p :: ps =>
    (picks facts).findSome? fun (l, rest) =>
      match σ.matchLiteral p l with
      | .ok τ => (arrange? ps rest τ).map (l :: ·)
      | .error _ => none

namespace Action

/-- The grounding whose facts are the given ones, in some order.  Facts that differ from
the preconditions in their heads are turned away before any arrangement is tried. -/
def groundingOf? (a : Action) (facts : List Literal) : Option Grounding :=
  if facts.length = a.preconditions.length ∧
      (facts.map Literal.head).isPerm (a.preconditions.map Literal.head) then
    (arrange? a.preconditions facts ∅).map Grounding.mk
  else
    none

/-- The sets of facts that count as looked at: as many facts as there are preconditions. -/
def candidates (a : Action) (s : State) : List (List Literal) :=
  combinations a.preconditions.length s

/-- The groundings of the action in the state, in the order of their candidates.  Only the
candidates with the heads of the preconditions are built. -/
def groundings (a : Action) (s : State) : List Grounding :=
  (selections Literal.head (a.preconditions.map Literal.head) s).filterMap fun facts =>
    (arrange? a.preconditions facts ∅).map Grounding.mk

/-- The candidates that are not built would give no grounding. -/
theorem groundings_eq_filterMap (a : Action) (s : State) :
    a.groundings s = (a.candidates s).filterMap a.groundingOf? := by
  rw [groundings, selections_eq_filter, List.length_map, List.filterMap_filter, candidates]
  congr 1
  funext facts
  split
  next h =>
    have hlength : facts.length = a.preconditions.length := by
      simpa using (List.isPerm_iff.1 h).length_eq
    simp [groundingOf?, h, hlength]
  next h => simp [groundingOf?, h]

end Action

end ClassicalPlanning
