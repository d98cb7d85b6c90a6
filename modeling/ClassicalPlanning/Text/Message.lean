/-
The wording of mismatches, misfits and faults.
-/
import ClassicalPlanning.Text.Pddl

namespace ClassicalPlanning

/-- A head in words: a denied predicate after `not`. -/
def Head.phrase (h : Head) : String :=
  match h.polarity with
  | .positive => h.predicate
  | .negative => "not " ++ h.predicate

/-- The mismatch in words. -/
def Mismatch.message : Mismatch → String
  | .head pattern ground => s!"Cannot unify {pattern.phrase} with {ground.phrase}"
  | .arity pattern ground => s!"Arity mismatch: {pattern} slots against {ground}"
  | .unground name => s!"State literal has unbound variable {name}"
  | .type name => s!"Slot type mismatch for variable {name}"
  | .conflict name bound found => s!"{name} is bound to {bound} but found {found}"

/-- The misfit in words. -/
def Misfit.message : Misfit → String
  | .unmatched cause => cause.message
  | .missing fact => s!"matched literal {fact.pddl} not in state"

/-- The fault in words. -/
def Fault.message : Fault → String
  | .typeMismatch name expected actual =>
    s!"Type mismatch for variable '{name}': expected {expected}, got {actual}"
  | .arityMismatch predicate expected actual =>
    s!"Predicate '{predicate}' takes {expected} arguments, got {actual}"
  | .unboundEffectVariable action name =>
    s!"Effect of action '{action}' uses variable '{name}' with no precondition binding"
  | .invalidGrounding action reason =>
    s!"Grounding does not fit action '{action}': {reason.message}"
  | .unknownPredicate name => s!"Unknown predicate: {name}"
  | .unknownObject name => s!"Unknown object: {name}"
  | .unknownType name type =>
    s!"Object '{name}' has type {type}, which the domain does not declare"

end ClassicalPlanning
