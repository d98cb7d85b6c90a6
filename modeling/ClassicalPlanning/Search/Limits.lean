/-
Limits of a search.
-/

namespace ClassicalPlanning

/-- How far a search may go, and what it reports on the way.  By default it is not
limited. -/
structure SearchLimits where
  /-- Nodes of this level are tested for the goal but not expanded. -/
  maxLevel : Option Nat := none
  /-- No more nodes than this are expanded. -/
  maxExpansions : Option Nat := none
  /-- Whether each new level is reported. -/
  logProgress : Bool := true
deriving DecidableEq, Repr

namespace SearchLimits

/-- Whether nodes of the level stay unexpanded. -/
def caps (limits : SearchLimits) (level : Nat) : Bool :=
  limits.maxLevel.any (· ≤ level)

/-- Whether no further node may be expanded once so many have been. -/
def spent (limits : SearchLimits) (expanded : Nat) : Bool :=
  limits.maxExpansions.any (· ≤ expanded)

end SearchLimits

end ClassicalPlanning
