/-
Domains.

A domain declares types, predicates and actions.  A type counts once however often it is
declared, in the place of its first declaration; of several predicates with one name the
last is the one that the name refers to.
-/
import ClassicalPlanning.Language.Action
import ClassicalPlanning.Language.Predicate

namespace ClassicalPlanning

/-- What can be said in a world, and done. -/
structure Domain where
  /-- The name of the domain. -/
  name : String
  /-- The declared types, each once. -/
  types : List TypeName
  /-- The declared predicates. -/
  predicates : List Predicate
  /-- The actions. -/
  actions : List Action
deriving DecidableEq, Repr

namespace Domain

/-- The domain with the given declarations. -/
def ofDeclarations (name : String) (types : List TypeName) (predicates : List Predicate)
    (actions : List Action) : Domain :=
  { name, types := types.eraseDups, predicates, actions }

/-- Whether the type is declared. -/
def Declares (d : Domain) (type : TypeName) : Prop :=
  type ∈ d.types

instance (d : Domain) (type : TypeName) : Decidable (d.Declares type) :=
  inferInstanceAs (Decidable (type ∈ d.types))

/-- The predicate that the name refers to. -/
def predicate? (d : Domain) (name : String) : Option Predicate :=
  d.predicates.reverse.find? fun p => p.name = name

/-- The predicate that the name refers to, or the fault that there is none. -/
def predicate (d : Domain) (name : String) : Except Fault Predicate :=
  match d.predicate? name with
  | some p => .ok p
  | none => .error (.unknownPredicate name)

end Domain

end ClassicalPlanning
