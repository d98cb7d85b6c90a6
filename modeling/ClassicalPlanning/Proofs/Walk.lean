/-
A walk along a line.

Some places lie in a line, each linked to the next one, and a walker at the first of them
wants to be at a given place.  A step leaves its link behind, so that it could be taken
again, and it is remembered that the walker is no longer where it was.

A walker who strolls may also stay: this action asks for nothing and changes nothing, so that it
can be taken for ever.

Where the line forks there is a second action, which cannot be carried out once it can be
chosen: its effect speaks of a place that no precondition binds.

This world is small enough to be worked out, and the theory of searches is illustrated in
it.
-/
import ClassicalPlanning.Language.Problem

namespace ClassicalPlanning.Walk

/-- A variable that ranges over places. -/
def free (name : String) : Variable :=
  .free name "place"

/-- The place of the given name. -/
def place (name : String) : Variable :=
  (free "?x").fill ⟨name, "place"⟩

/-- The walker is there. -/
def here (v : Variable) : Literal :=
  ⟨.positive, "at", [v]⟩

/-- There is a link. -/
def link (v w : Variable) : Literal :=
  ⟨.positive, "link", [v, w]⟩

/-- The walker takes a link. -/
def step : Action where
  name := "step"
  parameters := [free "?from", free "?to"]
  freeVariables := []
  preconditions := [here (free "?from"), link (free "?from") (free "?to")]
  effects := [here (free "?to"), link (free "?from") (free "?to"), (here (free "?from")).negate]

/-- The walker is at the first of the places. -/
def start (places : List String) : State :=
  places.head?.toList.map (fun a => here (place a)) ++
    (places.zip places.tail).map fun (a, b) => link (place a) (place b)

/-- The problem of walking from the first of the places to the given one. -/
def problem (places : List String) (goal : String) : Problem where
  name := "walk"
  domain := ⟨"line", ["place"], [], [step]⟩
  objects := groupByType (places.map (Object.mk · "place"))
  state := start places
  goal := [here (place goal)]

/-- The walker stays. -/
def stay : Action where
  name := "stay"
  parameters := []
  freeVariables := []
  preconditions := []
  effects := []

/-- The problem of strolling from the first of the places to the given one. -/
def stroll (places : List String) (goal : String) : Problem :=
  { problem places goal with domain := ⟨"line", ["place"], [], [step, stay]⟩ }

/-- The problem of strolling, where staying is tried first. -/
def dawdle (places : List String) (goal : String) : Problem :=
  { problem places goal with domain := ⟨"line", ["place"], [], [stay, step]⟩ }

/-- Who has left a place stumbles, it is not said where to. -/
def stumble : Action where
  name := "stumble"
  parameters := [free "?from"]
  freeVariables := []
  preconditions := [(here (free "?from")).negate]
  effects := [here (free "?to")]

/-- The problem of walking to the second of two places that are linked to the first one, with
a chance to stumble at either of them. -/
def fork : Problem where
  name := "fork"
  domain := ⟨"line", ["place"], [], [step, stumble]⟩
  objects := groupByType (["a", "b", "c"].map (Object.mk · "place"))
  state := [here (place "a"), link (place "a") (place "b"), link (place "a") (place "c")]
  goal := [here (place "c")]

end ClassicalPlanning.Walk
