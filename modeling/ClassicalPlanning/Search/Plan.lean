/-
Plans.

A plan is a sequence of steps from the initial state, oldest first; each step names an
action and the facts that it consumed.  `p ≈ q` means that two plans name the same actions,
with facts that say the same.
-/
import ClassicalPlanning.Language.Literal

namespace ClassicalPlanning

/-- An applied action, with the facts that it consumed. -/
structure Plan.Step where
  /-- The name of the action. -/
  action : String
  /-- The facts that filled the preconditions, in their order. -/
  matched : List Literal
deriving DecidableEq, Repr

/-- The actions that lead from the initial state to the goal. -/
structure Plan where
  /-- The steps, oldest first. -/
  steps : List Plan.Step := []
deriving DecidableEq, Repr

namespace Plan

/-- The number of steps. -/
def length (p : Plan) : Nat :=
  p.steps.length

/-- The plan to do nothing. -/
def isEmpty (p : Plan) : Bool :=
  p.steps.isEmpty

/-- The names of the actions, oldest first. -/
def names (p : Plan) : List String :=
  p.steps.map Plan.Step.action

/-- The names of the actions with what their facts say, oldest first. -/
def content (p : Plan) : List (String × List Proposition) :=
  p.steps.map fun s => (s.action, s.matched.map Literal.proposition)

/-- Two plans are alike when they have the same content. -/
instance : Setoid Plan where
  r p q := p.content = q.content
  iseqv := ⟨fun _ => rfl, Eq.symm, Eq.trans⟩

instance (p q : Plan) : Decidable (p ≈ q) :=
  inferInstanceAs (Decidable (p.content = q.content))

theorem equiv_iff {p q : Plan} : p ≈ q ↔ p.content = q.content := Iff.rfl

end Plan

end ClassicalPlanning
