/-
A race.

Two runners race, and the action that ends the race has two preconditions which each of them
can fill, while its effect treats the roles differently: the one who fills the first of them
wins.  The roles of facts matter in this world.
-/
import ClassicalPlanning.Language.Problem

namespace ClassicalPlanning.Race

/-- A variable that ranges over runners. -/
def free (name : String) : Variable :=
  .free name "runner"

/-- The runner of the given name. -/
def runner (name : String) : Variable :=
  (free "?x").fill ⟨name, "runner"⟩

/-- A predicate of one runner. -/
def fact (predicate : String) (v : Variable) : Literal :=
  ⟨.positive, predicate, [v]⟩

/-- One of two runners wins. -/
def finish : Action where
  name := "finish"
  parameters := [free "?x", free "?y"]
  freeVariables := []
  preconditions := [fact "runs" (free "?x"), fact "runs" (free "?y")]
  effects := [fact "won" (free "?x")]

/-- Two runners race, and the second is to win. -/
def problem : Problem where
  name := "race"
  domain := ⟨"track", ["runner"], [⟨"runs", [free "?x"]⟩, ⟨"won", [free "?x"]⟩], [finish]⟩
  objects := groupByType [⟨"a", "runner"⟩, ⟨"b", "runner"⟩]
  state := [fact "runs" (runner "a"), fact "runs" (runner "b")]
  goal := [fact "won" (runner "b")]

end ClassicalPlanning.Race
