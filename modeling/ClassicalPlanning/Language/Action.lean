/-
Action schemas.

An action consumes the facts that match its preconditions and adds its effects.  The
schemas share variables by name: a variable that occurs in several preconditions and
effects stands for one object throughout.
-/
import ClassicalPlanning.Language.Literal

namespace ClassicalPlanning

/-- A schema for actions, over named variables. -/
structure Action where
  /-- The name of the action. -/
  name : String
  /-- The parameters, which are shown but not searched for. -/
  parameters : List Variable
  /-- Further variables of the preconditions and effects. -/
  freeVariables : List Variable
  /-- The literals that must be matched by facts of the state, one fact each. -/
  preconditions : List Literal
  /-- The literals that replace the matched facts. -/
  effects : List Literal
deriving DecidableEq, Repr

/-- The number of denied preconditions. -/
def Action.deniedCount (a : Action) : Nat :=
  a.preconditions.countP Literal.isNegative

end ClassicalPlanning
