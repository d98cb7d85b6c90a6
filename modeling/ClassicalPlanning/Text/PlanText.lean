/-
Plans as text.
-/
import ClassicalPlanning.Search.Plan
import ClassicalPlanning.Text.Pddl

namespace ClassicalPlanning

/-- A step by its action and the facts that it consumed, each between quotes. -/
def Plan.Step.text (s : Plan.Step) : String :=
  s.action ++ ": [" ++ ", ".intercalate (s.matched.map fun l => "'" ++ l.pddl ++ "'") ++ "]"

/-- A plan as a heading followed by its steps, an empty line before each. -/
def Plan.text (p : Plan) : String :=
  "Actions to take, starting from the top:" ++
    String.join (p.steps.map fun s => "\n\n" ++ s.text)

end ClassicalPlanning
