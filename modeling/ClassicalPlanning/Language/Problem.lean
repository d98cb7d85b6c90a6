/-
Planning problems.

A problem places objects, an initial state and a goal in a domain.  It is refused when an
object, or a variable of a state or goal literal, has a type that the domain does not
declare; the fault names the first of them.  Objects are kept in groups, one for each
type that occurs, in the order in which the types occur.
-/
import ClassicalPlanning.Language.Domain

namespace ClassicalPlanning

/-- A domain, the objects of a world, how things stand and how they should. -/
structure Problem where
  /-- The name of the problem. -/
  name : String
  /-- The domain in which the problem is posed. -/
  domain : Domain
  /-- The objects, in groups of one type. -/
  objects : List (TypeName × List Object)
  /-- The initial facts. -/
  state : State
  /-- The literals to be made true. -/
  goal : List Literal
deriving DecidableEq, Repr

/-- The objects in groups: one group for each type that occurs, in the order in which the
types first occur, and within a group the objects in their order. -/
def groupByType (objects : List Object) : List (TypeName × List Object) :=
  (objects.map Object.type).eraseDups.map fun t => (t, objects.filter fun o => o.type = t)

namespace Problem

/-- The names with their types that a problem mentions: its objects, then the arguments of
the literals of its state and of its goal. -/
def mentions (objects : List Object) (state goal : List Literal) : List (String × TypeName) :=
  objects.map (fun o => (o.name, o.type)) ++
    ((state ++ goal).flatMap Literal.arguments).map fun v => (v.label, v.type)

/-- The problem with the given parts, if the domain declares every type that they
mention. -/
def ofParts (name : String) (domain : Domain) (objects : List Object) (state goal : List Literal) :
    Except Fault Problem :=
  match (mentions objects state goal).find? fun (_, type) => ¬ domain.Declares type with
  | some (name, type) => .error (.unknownType name type)
  | none => .ok { name, domain, objects := groupByType objects, state, goal }

end Problem

end ClassicalPlanning
