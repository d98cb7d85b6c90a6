/-
The JSON forms of a planning language.

`toJson` writes objects, variables, literals, predicates, actions, plans and limits, and
`ofJson?` reads them back.  Nothing is checked on reading but the form: the value of a
variable may have another type than the variable.  Domains and problems are written
only.
-/
import ClassicalPlanning.Json.Holdable
import ClassicalPlanning.Json.Record
import ClassicalPlanning.Language.Problem
import ClassicalPlanning.Matching.Grounding
import ClassicalPlanning.Search.Limits
import ClassicalPlanning.Search.Plan
import ClassicalPlanning.Text.Word64

namespace ClassicalPlanning

namespace Object

/-- The object as a record. -/
def toJson (o : Object) : Json :=
  .object [("name", .string o.name), ("type", .string o.type)]

/-- Reads an object. -/
def ofJson? (j : Json) : Option Object := do
  match ← j.fields? false ["name", "type"] with
  | [some name, some type] => return { name := ← name.string?, type := ← type.string? }
  | _ => none

end Object

namespace Variable

/-- The variable as a record; a free variable has the value `null`. -/
def toJson (v : Variable) : Json :=
  .object [("name", .string v.name), ("type", .string v.type),
    ("value", Json.ofOption Object.toJson v.value)]

/-- Reads a variable.  A variable without a value is free. -/
def ofJson? (j : Json) : Option Variable := do
  match ← j.fields? false ["name", "type", "value"] with
  | [some name, some type, value] =>
    return {
      name := ← name.string?
      type := ← type.string?
      value := ← (value.getD .null).option? Object.ofJson? }
  | _ => none

end Variable

namespace Polarity

/-- The word for the polarity. -/
def word : Polarity → String
  | positive => "positive"
  | negative => "negative"

/-- The polarity that a word names. -/
def ofWord? (word : String) : Option Polarity :=
  if word = "positive" then some .positive
  else if word = "negative" then some .negative
  else none

/-- Reads a polarity by its word. -/
def ofJson? (j : Json) : Option Polarity := do
  ofWord? (← j.string?)

/-- Reads a polarity that is a member of an object: its word, or an object with nothing but
`null` under its word. -/
def ofMember? : Json → Option Polarity
  | .object [(word, .null)] => ofWord? word
  | j => ofJson? j

end Polarity

namespace Literal

/-- The predicate and the arguments as a record. -/
def factToJson (l : Literal) : Json :=
  .object [
    ("predicate", .string l.predicate),
    ("variables", Json.ofList Variable.toJson l.arguments)]

/-- The literal as a record of its polarity and its fact. -/
def toJson (l : Literal) : Json :=
  .object [("polarity", .string l.polarity.word), ("fact", l.factToJson)]

/-- Reads the fact of a literal of the given polarity. -/
def ofFact? (polarity : Polarity) (j : Json) : Option Literal := do
  match ← j.fields? false ["predicate", "variables"] with
  | [some predicate, some arguments] =>
    return {
      polarity
      predicate := ← predicate.string?
      arguments := ← arguments.items? Variable.ofJson? }
  | _ => none

/-- The nesting that a text may have where its values have to be held. -/
def maxDepth : Nat := 127

/-- Whether the fact of a literal need not be held: its polarity comes before it. -/
def polarityFirst (members : List (String × Json)) : Bool :=
  (members.map Prod.fst).find? (fun k => k = "polarity" ∨ k = "fact") == some "polarity"

/-- Reads a literal that stands `depth` levels deep in its text.  A fact that comes before
its polarity has to be held until the polarity is known. -/
def ofJson? (depth : Nat) : Json → Option Literal
  | .array [polarity, fact] => do ofFact? (← Polarity.ofJson? polarity) fact
  | .object members => do
    match ← Json.field? members "polarity", ← Json.field? members "fact" with
    | some polarity, some fact =>
      let literal ← ofFact? (← Polarity.ofMember? polarity) fact
      if polarityFirst members ∨ (fact.isHoldable ∧ depth + 1 + fact.depth ≤ maxDepth) then
        return literal
      else none
    | _, _ => none
  | _ => none

end Literal

namespace Predicate

/-- The predicate as a record. -/
def toJson (p : Predicate) : Json :=
  .object [("name", .string p.name), ("slots", Json.ofList Variable.toJson p.slots)]

/-- Reads a predicate. -/
def ofJson? (j : Json) : Option Predicate := do
  match ← j.fields? false ["name", "slots"] with
  | [some name, some slots] =>
    return { name := ← name.string?, slots := ← slots.items? Variable.ofJson? }
  | _ => none

end Predicate

namespace Action

/-- The action as a record. -/
def toJson (a : Action) : Json :=
  .object [
    ("name", .string a.name),
    ("parameters", Json.ofList Variable.toJson a.parameters),
    ("free_variables", Json.ofList Variable.toJson a.freeVariables),
    ("preconditions", Json.ofList Literal.toJson a.preconditions),
    ("effects", Json.ofList Literal.toJson a.effects)]

/-- Reads an action. -/
def ofJson? (j : Json) : Option Action := do
  match ← j.fields? false ["name", "parameters", "free_variables", "preconditions", "effects"] with
  | [some name, some parameters, some freeVariables, some preconditions, some effects] =>
    return {
      name := ← name.string?
      parameters := ← parameters.items? Variable.ofJson?
      freeVariables := ← freeVariables.items? Variable.ofJson?
      preconditions := ← preconditions.items? (Literal.ofJson? 2)
      effects := ← effects.items? (Literal.ofJson? 2) }
  | _ => none

end Action

/-- The grounding as a record. -/
def Grounding.toJson (g : Grounding) : Json :=
  .object [("matched", Json.ofList Literal.toJson g.matched)]

namespace Plan.Step

/-- The step as a record. -/
def toJson (s : Plan.Step) : Json :=
  .object [("action", .string s.action), ("matched", Json.ofList Literal.toJson s.matched)]

/-- Reads a step. -/
def ofJson? (j : Json) : Option Plan.Step := do
  match ← j.fields? false ["action", "matched"] with
  | [some action, some matched] =>
    return { action := ← action.string?, matched := ← matched.items? (Literal.ofJson? 4) }
  | _ => none

end Plan.Step

namespace Plan

/-- The plan as a record. -/
def toJson (p : Plan) : Json :=
  .object [("steps", Json.ofList Plan.Step.toJson p.steps)]

/-- Reads a plan. -/
def ofJson? (j : Json) : Option Plan := do
  match ← j.fields? false ["steps"] with
  | [some steps] => return { steps := ← steps.items? Plan.Step.ofJson? }
  | _ => none

end Plan

namespace SearchLimits

/-- The limits as a record; an absent limit is `null`. -/
def toJson (limits : SearchLimits) : Json :=
  .object [
    ("max_level", Json.ofOption Json.ofNat limits.maxLevel),
    ("max_expansions", Json.ofOption Json.ofNat limits.maxExpansions),
    ("log_progress", .bool limits.logProgress)]

/-- Reads a limit: `null`, or a number written with digits alone and within the bound. -/
def limitOfJson? : Json → Option (Option Nat) :=
  Json.option? fun j => j.natural?.filter (· < word64Bound)

/-- Reads limits.  A field that is left out has its default. -/
def ofJson? (j : Json) : Option SearchLimits := do
  match ← j.fields? true ["max_level", "max_expansions", "log_progress"] with
  | [maxLevel, maxExpansions, logProgress] =>
    return {
      maxLevel := ← limitOfJson? (maxLevel.getD .null)
      maxExpansions := ← limitOfJson? (maxExpansions.getD .null)
      logProgress := ← (logProgress.getD (.bool true)).bool? }
  | _ => none

end SearchLimits

/-- The domain as a record. -/
def Domain.toJson (d : Domain) : Json :=
  .object [
    ("name", .string d.name),
    ("types", Json.ofList .string d.types),
    ("predicates", Json.ofList Predicate.toJson d.predicates),
    ("actions", Json.ofList Action.toJson d.actions)]

/-- The problem as a record, with its domain by name and its objects by type. -/
def Problem.toJson (p : Problem) : Json :=
  .object [
    ("name", .string p.name),
    ("domain", .string p.domain.name),
    ("objects", .object (p.objects.map fun (type, objects) =>
      (type, Json.ofList Object.toJson objects))),
    ("state", Json.ofList Literal.toJson p.state),
    ("goal", Json.ofList Literal.toJson p.goal)]

end ClassicalPlanning
