/-
Predicates and their application.

A predicate declares its arguments by typed slots.  Applying it to objects and variables
gives a positive literal: an object fills the slot that it stands against, a variable
takes the place of the slot and keeps its own name.  The number of arguments is checked
first, then their types from left to right.
-/
import ClassicalPlanning.Fault

namespace ClassicalPlanning

/-- Gives a free or bound variable the value `o`, which must have the type of the
variable. -/
def Variable.bind (v : Variable) (o : Object) : Except Fault Variable :=
  if o.type = v.type then .ok (v.fill o) else .error (.typeMismatch v.name v.type o.type)

theorem Variable.bind_eq_ok_iff {v w : Variable} {o : Object} :
    v.bind o = .ok w ↔ o.type = v.type ∧ v.fill o = w := by
  unfold Variable.bind
  split <;> simp [*]

/-- A declared predicate. -/
structure Predicate where
  /-- The name of the predicate. -/
  name : String
  /-- The typed slots that its arguments fill. -/
  slots : List Variable
deriving DecidableEq, Repr

/-- What a predicate can be applied to. -/
inductive Argument where
  /-- An object, which fills the slot. -/
  | object (o : Object)
  /-- A variable, which takes the place of the slot. -/
  | variable (v : Variable)
deriving DecidableEq, Repr

/-- What stands in the slot once it meets the argument. -/
def Argument.fillSlot (slot : Variable) : Argument → Except Fault Variable
  | .object o => slot.bind o
  | .variable v =>
    if v.type = slot.type then .ok v else .error (.typeMismatch v.name slot.type v.type)

namespace Predicate

/-- The number of arguments. -/
def arity (p : Predicate) : Nat :=
  p.slots.length

/-- The positive literal of the predicate with the given arguments. -/
def apply (p : Predicate) (arguments : List Argument) : Except Fault Literal :=
  if arguments.length = p.arity then do
    let filled ← (p.slots.zip arguments).mapM fun (slot, argument) => argument.fillSlot slot
    return ⟨.positive, p.name, filled⟩
  else
    .error (.arityMismatch p.name p.arity arguments.length)

end Predicate

end ClassicalPlanning
