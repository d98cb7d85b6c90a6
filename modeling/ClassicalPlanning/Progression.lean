/-
Progression: what becomes of a state when an action is applied.

The facts that fill the preconditions are taken out of the state, each once, and the
effects are put at its end, with their variables replaced by the objects that the facts
bind them to.  A denied effect is put there as a denied fact; it takes nothing away.
-/
import ClassicalPlanning.Matching.Grounding

namespace ClassicalPlanning

/-- The effects of the action when the given facts fill its preconditions. -/
def Action.effectsFor (a : Action) (g : Grounding) : Except Fault (List Literal) :=
  match unifyAll a.preconditions g.matched with
  | .error cause => .error (.invalidGrounding a.name (.unmatched cause))
  | .ok σ => a.effects.mapM (σ.applyLiteral a.name)

namespace State

/-- The state without the first of its facts that says the same as `l`. -/
def remove? (l : Literal) : State → Option State
  | [] => none
  | m :: s => if m ≈ l then some s else (remove? l s).map (m :: ·)

/-- The state without the given facts, each taken out once, or the first of them that is
not there to be taken. -/
def removeAll (s : State) : List Literal → Except Literal State
  | [] => .ok s
  | l :: ls =>
    match s.remove? l with
    | none => .error l
    | some rest => rest.removeAll ls

/-- The state after the named action took out the matched facts and added the effects. -/
def successor (action : String) (s : State) (matched effects : List Literal) :
    Except Fault State :=
  match s.removeAll matched with
  | .error l => .error (.invalidGrounding action (.missing l))
  | .ok rest => .ok (rest ++ effects)

end State

end ClassicalPlanning
