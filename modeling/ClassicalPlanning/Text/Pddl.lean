/-
PDDL.

How objects, literals, actions, domains and problems are written in the Planning Domain
Definition Language.  In a declaration a variable is written with its type; inside a
literal an argument is written by its label alone.  Several literals are joined by `and`;
a single one stands by itself, and none leaves an empty place.
-/
import ClassicalPlanning.Language.Problem

namespace ClassicalPlanning

/-- An object with its type. -/
def Object.pddl (o : Object) : String :=
  o.name ++ " - " ++ o.type

/-- A free variable with its type, or the name of the object that it is bound to. -/
def Variable.pddl (v : Variable) : String :=
  match v.value with
  | some o => o.name
  | none => v.name ++ " - " ++ v.type

/-- A list of declared variables. -/
def pddlVariables (vs : List Variable) : String :=
  " ".intercalate (vs.map Variable.pddl)

/-- A predicate with its slots.  The blank after the name stays if there are none. -/
def Predicate.pddl (p : Predicate) : String :=
  "(" ++ p.name ++ " " ++ pddlVariables p.slots ++ ")"

/-- A literal by its predicate and the labels of its arguments. -/
def Literal.pddl (l : Literal) : String :=
  let atom := "(" ++ l.predicate ++ " " ++ " ".intercalate (l.arguments.map Variable.label) ++ ")"
  match l.polarity with
  | .positive => atom
  | .negative => "(not " ++ atom ++ ")"

/-- Literals that hold together. -/
def pddlConjunction (ls : List Literal) : String :=
  let body := " ".intercalate (ls.map Literal.pddl)
  if 2 ≤ ls.length then "(and " ++ body ++ ")" else body

/-- An action as a block, indented as in a domain.  The free variables have a line of
their own, which is left out if there are none. -/
def Action.pddl (a : Action) : String :=
  "(:action " ++ a.name ++ "\n" ++
  "        :parameters   (" ++ pddlVariables a.parameters ++ ")\n" ++
  (if a.freeVariables.isEmpty then ""
    else "        :vars         (" ++ pddlVariables a.freeVariables ++ ")\n") ++
  "        :precondition " ++ pddlConjunction a.preconditions ++ "\n" ++
  "        :effect       " ++ pddlConjunction a.effects ++ "\n" ++
  "    )"

/-- A domain as a file. -/
def Domain.pddl (d : Domain) : String :=
  "(define (domain " ++ d.name ++ ")\n" ++
  "    (:requirements :strips :typing)\n" ++
  "    (:types\n" ++
  "        " ++ "\n        ".intercalate d.types ++ "\n" ++
  "    )\n" ++
  "    (:predicates\n" ++
  "        " ++ "\n        ".intercalate (d.predicates.map Predicate.pddl) ++ "\n" ++
  "    )\n" ++
  String.join (d.actions.map fun a => "    " ++ a.pddl ++ "\n") ++
  ")\n"

/-- A problem as a file, with its objects a line for each type. -/
def Problem.pddl (p : Problem) : String :=
  "(define (problem " ++ p.name ++ ")\n" ++
  "    (:domain " ++ p.domain.name ++ ")\n" ++
  "    (:objects\n" ++
  "      " ++ "\n      ".intercalate (p.objects.map fun (type, objects) =>
    " ".intercalate (objects.map Object.name) ++ " - " ++ type) ++ ")\n" ++
  "    (:init\n" ++
  "      " ++ "\n      ".intercalate (p.state.map Literal.pddl) ++ ")\n" ++
  "    (:goal\n" ++
  "      " ++ pddlConjunction p.goal ++ ")\n" ++
  ")\n"

end ClassicalPlanning
