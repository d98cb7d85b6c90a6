/-
The crane yard.

Two arms move six containers between four stacks.  Every stack rests on a shared pallet,
so that the pallet is at the top of an empty stack.  To pick up a container an arm needs
to be free and the container to be at the top; what lies below it is then at the top.
-/
import ClassicalPlanning.Language.Problem

namespace ClassicalPlanning.CraneYard

/-- What the arms are to bring about. -/
inductive Goal where
  /-- The container `cf` is at the top of the stack `p2`, which takes two moves. -/
  | topOfP2
  /-- Every container is on `p2` or `q2`, which is far beyond a blind search. -/
  | rearrange
deriving DecidableEq, Repr

/-- The name of the goal among the options. -/
def Goal.option : Goal → String
  | topOfP2 => "top-of-p2"
  | rearrange => "rearrange"

/-- The goal of the given name. -/
def Goal.ofOption? (s : String) : Option Goal :=
  [topOfP2, rearrange].find? fun g => g.option = s

/-- The name of the goal in messages. -/
def Goal.label : Goal → String
  | topOfP2 => "TopOfP2"
  | rearrange => "Rearrange"

/-- The type of containers. -/
def container : TypeName := "container"

/-- The type of stacks. -/
def stack : TypeName := "stack"

/-- The type of arms. -/
def arm : TypeName := "arm"

/-- The containers, the arms and the stacks. -/
def objects : List Object :=
  ["ca", "cb", "cc", "cd", "ce", "cf", "pallet"].map (Object.mk · container) ++
    ["k1", "k2"].map (Object.mk · arm) ++
    ["p1", "q1", "p2", "q2"].map (Object.mk · stack)

/-- The container that an action is about. -/
def c : Variable := .free "?c" container

/-- The container below it. -/
def other : Variable := .free "?other" container

/-- The arm that acts. -/
def k : Variable := .free "?k" arm

/-- The stack at which it acts. -/
def p : Variable := .free "?p" stack

/-- The predicates: what an arm holds, whether it is free, on which stack a container is,
which container is at the top of a stack, and which is on top of which. -/
def predicates : List Predicate :=
  [⟨"holding", [k, c]⟩, ⟨"free", [k]⟩, ⟨"on", [c, p]⟩, ⟨"at_the_top", [c, p]⟩,
    ⟨"on_top", [.free "?k1" container, .free "?k2" container]⟩]

/-- Asserts a predicate of variables. -/
def asserted (predicate : String) (arguments : List Variable) : Literal :=
  ⟨.positive, predicate, arguments⟩

/-- Denies a predicate of variables. -/
def denied (predicate : String) (arguments : List Variable) : Literal :=
  ⟨.negative, predicate, arguments⟩

/-- A free arm takes the container at the top of a stack. -/
def pickUp : Action where
  name := "pick-up"
  parameters := [k, c, p]
  freeVariables := [other]
  preconditions :=
    [asserted "free" [k], asserted "on" [c, p], asserted "at_the_top" [c, p],
      asserted "on_top" [c, other]]
  effects :=
    [asserted "holding" [k, c], asserted "at_the_top" [other, p], denied "on" [c, p],
      denied "at_the_top" [c, p], denied "on_top" [c, other], denied "free" [k]]

/-- A loaded arm puts its container on a stack. -/
def putDown : Action where
  name := "put-down"
  parameters := [k, c, p]
  freeVariables := [other]
  preconditions := [asserted "holding" [k, c], asserted "at_the_top" [other, p]]
  effects :=
    [asserted "on" [c, p], asserted "at_the_top" [c, p], asserted "on_top" [c, other],
      denied "at_the_top" [other, p], denied "holding" [k, c], asserted "free" [k]]

/-- What can be said of the yard, and done. -/
def domain : Domain :=
  .ofDeclarations "platform-worker-robot" [container, stack, arm] predicates [pickUp, putDown]

/-- The object of the given name. -/
def object (name : String) : Except Fault Object :=
  match objects.find? fun o => o.name = name with
  | some o => .ok o
  | none => .error (.unknownObject name)

/-- The fact that the predicate holds of the named objects.  The objects are looked up
first. -/
def fact (predicate : String) (names : List String) : Except Fault Literal := do
  let arguments ← names.mapM object
  (← domain.predicate predicate).apply (arguments.map .object)

/-- The facts with the given predicates and objects. -/
def facts (entries : List (String × List String)) : Except Fault (List Literal) :=
  entries.mapM fun (predicate, names) => fact predicate names

/-- The stacks `p1` and `q1` hold three containers each, `p2` and `q2` none, and both arms
are free. -/
def start : Except Fault State :=
  facts [
    ("on", ["ca", "p1"]), ("on", ["cb", "p1"]), ("on", ["cc", "p1"]),
    ("on", ["cd", "q1"]), ("on", ["ce", "q1"]), ("on", ["cf", "q1"]),
    ("on_top", ["ca", "pallet"]), ("on_top", ["cb", "ca"]), ("on_top", ["cc", "cb"]),
    ("on_top", ["cd", "pallet"]), ("on_top", ["ce", "cd"]), ("on_top", ["cf", "ce"]),
    ("at_the_top", ["cc", "p1"]), ("at_the_top", ["cf", "q1"]),
    ("at_the_top", ["pallet", "p2"]), ("at_the_top", ["pallet", "q2"]),
    ("free", ["k1"]), ("free", ["k2"])]

/-- The literals of a goal. -/
def Goal.literals : Goal → Except Fault (List Literal)
  | topOfP2 => facts [("at_the_top", ["cf", "p2"])]
  | rearrange => facts [
      ("on", ["ca", "p2"]), ("on", ["cb", "q2"]), ("on", ["cc", "p2"]), ("on", ["cd", "q2"]),
      ("on", ["ce", "q2"]), ("on", ["cf", "q2"])]

/-- The problem of bringing about a goal. -/
def problem (goal : Goal) : Except Fault Problem := do
  Problem.ofParts "dwrpb1" domain objects (← start) (← goal.literals)

end ClassicalPlanning.CraneYard
