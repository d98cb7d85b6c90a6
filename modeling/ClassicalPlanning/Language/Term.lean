/-
Objects and variables.

A planning language is typed: every object and every variable carries the name of its
type.  A variable is free as long as it stands for nothing, and bound once it has been
given an object.  Two variables may differ as data and yet stand for the same thing,
because a bound variable keeps the name it had while it was free; `Variable.referent` is
what a variable stands for, and `v ≈ w` says that two variables agree on it.
-/

namespace ClassicalPlanning

/-- The name of a type. -/
abbrev TypeName := String

/-- A thing of the world, such as an arm or a container. -/
structure Object where
  /-- The name of the object. -/
  name : String
  /-- The type of the object. -/
  type : TypeName
deriving DecidableEq, Repr

/-- A typed place that an object may fill. -/
structure Variable where
  /-- The name of the variable, which it keeps when it is bound. -/
  name : String
  /-- The type of the objects that the variable ranges over. -/
  type : TypeName
  /-- The object that the variable is bound to. -/
  value : Option Object := none
deriving DecidableEq, Repr

/-- What a variable stands for: a bound variable for the object it is bound to, seen at
the type of the variable, and a free variable for itself. -/
inductive Referent where
  /-- An object, at the type of the place that it fills. -/
  | constant (object : String) (type : TypeName)
  /-- A place that nothing fills yet. -/
  | placeholder (name : String) (type : TypeName)
deriving DecidableEq, Repr

namespace Variable

/-- The free variable of the given name and type. -/
def free (name : String) (type : TypeName) : Variable :=
  { name, type }

/-- Whether an object fills the variable. -/
def isBound (v : Variable) : Bool :=
  v.value.isSome

/-- The variable without its value. -/
def unbind (v : Variable) : Variable :=
  { v with value := none }

/-- The variable with `o` as its value, whatever the types. -/
def fill (v : Variable) (o : Object) : Variable :=
  { v with value := some o }

/-- The name under which the variable is written in a fact: that of its value if it has
one, and its own otherwise. -/
def label (v : Variable) : String :=
  match v.value with
  | some o => o.name
  | none => v.name

/-- What the variable stands for. -/
def referent (v : Variable) : Referent :=
  match v.value with
  | some o => .constant o.name v.type
  | none => .placeholder v.name v.type

/-- Two variables are alike when they stand for the same thing: the name of a bound
variable plays no part, and neither does the type of its value. -/
instance : Setoid Variable where
  r v w := v.referent = w.referent
  iseqv := ⟨fun _ => rfl, Eq.symm, Eq.trans⟩

instance (v w : Variable) : Decidable (v ≈ w) :=
  inferInstanceAs (Decidable (v.referent = w.referent))

/-- A bound variable is well typed when its value has its type.  Binding keeps to this,
but a variable read from a file need not. -/
def WellTyped (v : Variable) : Prop :=
  ∀ o ∈ v.value, o.type = v.type

theorem equiv_iff {v w : Variable} : v ≈ w ↔ v.referent = w.referent := Iff.rfl

@[simp] theorem isBound_free {name : String} {type : TypeName} : (free name type).isBound = false :=
  rfl

@[simp] theorem isBound_unbind {v : Variable} : v.unbind.isBound = false := rfl

@[simp] theorem isBound_fill {v : Variable} {o : Object} : (v.fill o).isBound = true := rfl

end Variable

end ClassicalPlanning
