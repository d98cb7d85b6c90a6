/-
What can go wrong.

A `Mismatch` says why a pattern does not match a ground literal, a `Misfit` why chosen
facts cannot serve an action, and a `Fault` why a domain, a problem or an application is
refused.  A search that finds no plan is not a fault.  The wording of all three is in
`ClassicalPlanning.Text.Message`.
-/
import ClassicalPlanning.Language.Literal

namespace ClassicalPlanning

/-- Why a pattern does not match a ground literal. -/
inductive Mismatch where
  /-- The two differ in polarity or in predicate. -/
  | head (pattern ground : Head)
  /-- The two have different numbers of arguments. -/
  | arity (pattern ground : Nat)
  /-- This argument of the ground literal is free. -/
  | unground (name : String)
  /-- This argument of the pattern has another type than its counterpart. -/
  | type (name : String)
  /-- The variable is bound to one object and would have to be bound to another. -/
  | conflict (name bound found : String)
deriving DecidableEq, Repr

/-- Why chosen facts cannot serve an action. -/
inductive Misfit where
  /-- The facts do not match the preconditions. -/
  | unmatched (cause : Mismatch)
  /-- The fact is not in the state, or not often enough. -/
  | missing (fact : Literal)
deriving DecidableEq, Repr

/-- Why a part of a planning problem is refused. -/
inductive Fault where
  /-- A variable meets an object or a variable of another type. -/
  | typeMismatch (name : String) (expected actual : TypeName)
  /-- A predicate is applied to the wrong number of arguments. -/
  | arityMismatch (predicate : String) (expected actual : Nat)
  /-- An effect of the action uses a variable that no precondition binds. -/
  | unboundEffectVariable (action name : String)
  /-- The chosen facts do not serve the action. -/
  | invalidGrounding (action : String) (reason : Misfit)
  /-- No predicate of this name is declared. -/
  | unknownPredicate (name : String)
  /-- No object has this name. -/
  | unknownObject (name : String)
  /-- The named object or variable has a type that is not declared. -/
  | unknownType (name : String) (type : TypeName)
deriving DecidableEq, Repr

end ClassicalPlanning
