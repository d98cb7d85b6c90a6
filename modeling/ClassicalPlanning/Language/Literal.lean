/-
Literals and states.

A literal is a predicate applied to variables, asserted or denied.  `Literal.head` is its
polarity and predicate, which is all that decides whether two literals can be matched at
all, and `Literal.proposition` is what the literal says once the names of bound variables
are forgotten; `l ≈ m` means that `l` and `m` say the same.

A state is a list of literals.  The same literal may occur in it several times, and a
denied literal is a fact of its own: it does not cancel the asserted one.
-/
import ClassicalPlanning.Language.Term

namespace ClassicalPlanning

/-- Whether a literal asserts its atom or denies it. -/
inductive Polarity where
  /-- The atom is asserted. -/
  | positive
  /-- The atom is denied. -/
  | negative
deriving DecidableEq, Repr

/-- The other polarity. -/
def Polarity.flip : Polarity → Polarity
  | positive => negative
  | negative => positive

@[simp] theorem Polarity.flip_flip (p : Polarity) : p.flip.flip = p := by
  cases p <;> rfl

/-- A predicate applied to variables, asserted or denied. -/
structure Literal where
  /-- Whether the atom is asserted or denied. -/
  polarity : Polarity
  /-- The name of the predicate. -/
  predicate : String
  /-- The variables that the predicate is applied to. -/
  arguments : List Variable
deriving DecidableEq, Repr

/-- A polarity and a predicate: what two literals must share to be matched. -/
structure Head where
  /-- Whether the atom is asserted or denied. -/
  polarity : Polarity
  /-- The name of the predicate. -/
  predicate : String
deriving DecidableEq, Repr

/-- What a literal says. -/
structure Proposition where
  /-- The polarity and the predicate. -/
  head : Head
  /-- What the arguments stand for. -/
  referents : List Referent
deriving DecidableEq, Repr

namespace Literal

/-- The polarity and the predicate of a literal. -/
def head (l : Literal) : Head :=
  ⟨l.polarity, l.predicate⟩

/-- What the literal says. -/
def proposition (l : Literal) : Proposition :=
  ⟨l.head, l.arguments.map Variable.referent⟩

/-- Two literals are alike when they say the same. -/
instance : Setoid Literal where
  r l m := l.proposition = m.proposition
  iseqv := ⟨fun _ => rfl, Eq.symm, Eq.trans⟩

instance (l m : Literal) : Decidable (l ≈ m) :=
  inferInstanceAs (Decidable (l.proposition = m.proposition))

/-- Whether the literal denies its atom. -/
def isNegative (l : Literal) : Bool :=
  l.polarity == .negative

/-- The literal of the other polarity. -/
def negate (l : Literal) : Literal :=
  { l with polarity := l.polarity.flip }

/-- Whether every argument is bound. -/
def isGround (l : Literal) : Bool :=
  l.arguments.all Variable.isBound

/-- A literal is well typed when its arguments are. -/
def WellTyped (l : Literal) : Prop :=
  ∀ v ∈ l.arguments, v.WellTyped

theorem equiv_iff {l m : Literal} : l ≈ m ↔ l.proposition = m.proposition := Iff.rfl

@[simp] theorem negate_negate (l : Literal) : l.negate.negate = l := by
  simp [negate]

end Literal

/-- The facts of a moment, in the order in which they came about. -/
abbrev State := List Literal

namespace State

/-- The fact `l` holds in `s` when some literal of `s` says the same. -/
def Holds (s : State) (l : Literal) : Prop :=
  ∃ m ∈ s, m ≈ l

instance (s : State) (l : Literal) : Decidable (s.Holds l) :=
  inferInstanceAs (Decidable (∃ m ∈ s, m ≈ l))

/-- A goal is reached when each of its literals holds; order and further facts do not
matter, and a denied goal literal needs a denied fact. -/
def Satisfies (s : State) (goal : List Literal) : Prop :=
  ∀ l ∈ goal, s.Holds l

instance (s : State) (goal : List Literal) : Decidable (s.Satisfies goal) :=
  inferInstanceAs (Decidable (∀ l ∈ goal, s.Holds l))

end State

end ClassicalPlanning
