/-
What the application of a predicate checks.

A predicate can be applied to as many arguments as it has slots, each of the type of its slot, and
to nothing else.  A wrong number is found first, and then, from left to right, the first argument
of a wrong type (`Predicate.apply_eq_error_iff`).  Whatever the arguments are, what stands in the
literal has the types of the slots (`Predicate.types_of_apply`).
-/
import ClassicalPlanning.Language.Predicate
import ClassicalPlanning.Proofs.Outcome

namespace ClassicalPlanning

namespace Argument

/-- The type of an object or of a variable. -/
def type : Argument → TypeName
  | .object o => o.type
  | .variable v => v.type

/-- The name that a fault gives to the argument: an object goes by the name of its slot. -/
def nameIn (slot : Variable) : Argument → String
  | .object _ => slot.name
  | .variable v => v.name

variable {argument : Argument} {slot v : Variable} {fault : Fault}

lemma type_of_fillSlot (h : argument.fillSlot slot = .ok v) : v.type = slot.type := by
  cases argument with
  | object o =>
    obtain ⟨-, rfl⟩ := Variable.bind_eq_ok_iff.mp h
    rfl
  | «variable» w =>
    simp only [fillSlot] at h
    split at h <;> simp_all

lemma exists_fillSlot_eq_ok_iff :
    (∃ v, argument.fillSlot slot = .ok v) ↔ argument.type = slot.type := by
  cases argument with
  | object o => simp [fillSlot, Variable.bind_eq_ok_iff, type]
  | «variable» w =>
    simp only [fillSlot, type]
    split <;> simp_all

lemma fillSlot_eq_error_iff : argument.fillSlot slot = .error fault ↔
    argument.type ≠ slot.type ∧
      fault = .typeMismatch (argument.nameIn slot) slot.type argument.type := by
  cases argument with
  | object o =>
    simp only [fillSlot, Variable.bind, type, nameIn]
    split <;> simp_all [eq_comm]
  | «variable» w =>
    simp only [fillSlot, type, nameIn]
    split <;> simp_all [eq_comm]

end Argument

namespace Predicate

variable {p : Predicate} {arguments : List Argument} {l : Literal} {fault : Fault}

lemma apply_of_length_eq (h : arguments.length = p.arity) : p.apply arguments =
    ((p.slots.zip arguments).mapM fun sa : Variable × Argument => sa.2.fillSlot sa.1).map
      fun vs => ⟨.positive, p.name, vs⟩ := by
  rw [apply, if_pos h]
  generalize (p.slots.zip arguments).mapM
    (fun sa : Variable × Argument => sa.2.fillSlot sa.1) = filled
  cases filled <;> rfl

lemma apply_of_length_ne (h : arguments.length ≠ p.arity) :
    p.apply arguments = .error (.arityMismatch p.name p.arity arguments.length) := by
  rw [apply, if_neg h]

lemma apply_eq_ok_iff : p.apply arguments = .ok l ↔ arguments.length = p.arity ∧
    ∃ vs, (p.slots.zip arguments).mapM (fun sa => sa.2.fillSlot sa.1) = .ok vs ∧
      ⟨.positive, p.name, vs⟩ = l := by
  by_cases hlength : arguments.length = p.arity
  · simp only [apply_of_length_eq hlength, map_eq_ok_iff, hlength, true_and]
  · simp [apply_of_length_ne hlength, hlength]

/-- A predicate can be applied to arguments that match its slots in number and in type. -/
lemma exists_apply_eq_ok_iff : (∃ l, p.apply arguments = .ok l) ↔
    List.Forall₂ (fun slot argument => Argument.type argument = Variable.type slot)
      p.slots arguments := by
  have hfilled : (∃ vs, (p.slots.zip arguments).mapM (fun sa => sa.2.fillSlot sa.1) = .ok vs) ↔
      ∀ {slot argument}, (slot, argument) ∈ p.slots.zip arguments →
        Argument.type argument = Variable.type slot := by
    simp only [exists_mapM_eq_ok_iff, Argument.exists_fillSlot_eq_ok_iff, Prod.forall]
  rw [List.forall₂_iff_zip, ← hfilled, eq_comm]
  simp only [apply_eq_ok_iff]
  exact ⟨fun ⟨_, hlength, vs, hvs, _⟩ => ⟨hlength, vs, hvs⟩,
    fun ⟨hlength, vs, hvs⟩ => ⟨_, hlength, vs, hvs, rfl⟩⟩

/-- A wrong number of arguments is at fault, or else the first argument of a wrong type. -/
lemma apply_eq_error_iff : p.apply arguments = .error fault ↔
    (arguments.length ≠ p.arity ∧ fault = .arityMismatch p.name p.arity arguments.length) ∨
    (arguments.length = p.arity ∧ ∃ slot argument,
      IsFirst (fun sa => Argument.type sa.2 ≠ Variable.type sa.1)
        (p.slots.zip arguments) (slot, argument) ∧
      fault = .typeMismatch (argument.nameIn slot) slot.type argument.type) := by
  by_cases hlength : arguments.length = p.arity
  · simp only [apply_of_length_eq hlength, map_eq_error_iff, mapM_eq_error_iff,
      Argument.fillSlot_eq_error_iff, exists_and_left, exists_eq, and_true, Prod.exists, hlength,
      ne_eq, not_true, false_and, false_or, true_and]
    constructor
    · rintro ⟨slot, argument, hfirst, -, hfault⟩
      exact ⟨slot, argument, hfirst, hfault⟩
    · rintro ⟨slot, argument, hfirst, hfault⟩
      exact ⟨slot, argument, hfirst, hfirst.holds, hfault⟩
  · simp [apply_of_length_ne hlength, hlength, eq_comm]

/-- What stands in the literal has the types of the slots. -/
lemma types_of_apply (h : p.apply arguments = .ok l) :
    l.arguments.map Variable.type = p.slots.map Variable.type := by
  obtain ⟨hlength, vs, hvs, rfl⟩ := apply_eq_ok_iff.mp h
  calc vs.map Variable.type = (p.slots.zip arguments).map fun sa => sa.1.type :=
        map_eq_map_of_mapM_eq_ok (fun _ _ => Argument.type_of_fillSlot) hvs
    _ = ((p.slots.zip arguments).map Prod.fst).map Variable.type := List.map_map.symm
    _ = p.slots.map Variable.type := by rw [List.map_fst_zip (Nat.le_of_eq hlength.symm)]

end Predicate

end ClassicalPlanning
