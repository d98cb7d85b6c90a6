/-
What a move adds.

An effect is added as an instance: its free variables take the objects that the facts of the move
bind their names to.  Binding compares the types, so an instance is well typed if the constants of
the effect are; and it is ground, since no variable is left without a value.  Whoever chose the
facts of a move, a node that it leads to has no other facts than those of the node before it and
such instances.  This is the main result, `mem_state_or_adds_of_apply`.
-/
import ClassicalPlanning.Proofs.Matching.Likeness
import ClassicalPlanning.Proofs.Search.Tree

namespace ClassicalPlanning

/-- The literal is an instance of an effect of the move, under the substitution that matches its
facts to the preconditions. -/
def Move.Adds (m : Move) (l : Literal) : Prop :=
  ∃ e ∈ m.action.effects, ∃ σ, unifyAll m.action.preconditions m.grounding.matched = .ok σ ∧
    σ.applyLiteral m.action.name e = .ok l

/-! ## Instances of effects -/

lemma Variable.wellTyped_fill_iff {v : Variable} {o : Object} :
    (v.fill o).WellTyped ↔ o.type = v.type := by
  simp [WellTyped, fill]

namespace Substitution

variable {σ : Substitution} {action : String} {v w : Variable} {e l : Literal}

/-- What stands in an instance has been bound there, or it stood in the effect. -/
lemma eq_or_wellTyped_of_applyVariable (h : σ.applyVariable action v = .ok w) :
    v = w ∨ w.WellTyped := by
  rcases applyVariable_eq_ok_iff.mp h with ⟨-, hvw⟩ | ⟨-, o, -, htype, rfl⟩
  · exact Or.inl hvw
  · exact Or.inr (Variable.wellTyped_fill_iff.mpr htype)

lemma wellTyped_of_applyVariable (hv : v.WellTyped) (h : σ.applyVariable action v = .ok w) :
    w.WellTyped := by
  rcases eq_or_wellTyped_of_applyVariable h with rfl | hw
  · exact hv
  · exact hw

/-- An instance of a variable is bound, and its type is that of the variable. -/
lemma isBound_of_applyVariable (h : σ.applyVariable action v = .ok w) :
    w.isBound ∧ w.type = v.type := by
  rcases applyVariable_eq_ok_iff.mp h with ⟨hbound, rfl⟩ | ⟨-, o, -, -, rfl⟩
  · exact ⟨hbound, rfl⟩
  · exact ⟨Variable.isBound_fill, rfl⟩

/-- The arguments of an instance are instances of those of the effect. -/
lemma exists_of_mem_of_applyLiteral (h : σ.applyLiteral action e = .ok l) (hw : w ∈ l.arguments) :
    ∃ v ∈ e.arguments, σ.applyVariable action v = .ok w := by
  obtain ⟨arguments, harguments, rfl⟩ := applyLiteral_eq_ok_iff.mp h
  exact exists_of_mem_of_mapM_eq_ok harguments hw

end Substitution

/-! ## Facts of a child -/

namespace Move.Adds

variable {m : Move} {l : Literal} {v : Variable}

lemma isGround (h : m.Adds l) : l.isGround := by
  obtain ⟨e, -, σ, -, happly⟩ := h
  refine List.all_eq_true.mpr fun w hw => ?_
  obtain ⟨v, -, hvw⟩ := Substitution.exists_of_mem_of_applyLiteral happly hw
  exact (Substitution.isBound_of_applyVariable hvw).1

lemma wellTyped (h : m.Adds l) (heffects : ∀ e ∈ m.action.effects, e.WellTyped) :
    l.WellTyped := by
  obtain ⟨e, he, σ, -, happly⟩ := h
  intro w hw
  obtain ⟨v, hv, hvw⟩ := Substitution.exists_of_mem_of_applyLiteral happly hw
  exact Substitution.wellTyped_of_applyVariable (heffects e he v hv) hvw

/-- The types of what is added are those of the effects. -/
lemma exists_type_eq (h : m.Adds l) (hv : v ∈ l.arguments) :
    ∃ e ∈ m.action.effects, ∃ w ∈ e.arguments, w.type = v.type := by
  obtain ⟨e, he, σ, -, happly⟩ := h
  obtain ⟨w, hw, hwv⟩ := Substitution.exists_of_mem_of_applyLiteral happly hv
  exact ⟨e, he, w, hw, (Substitution.isBound_of_applyVariable hwv).2.symm⟩

end Move.Adds

/-- A fact of a child stays from the parent, or the move adds it. -/
theorem mem_state_or_adds_of_apply {n child : Node} {m : Move} (h : n.apply m = .ok child) :
    ∀ l ∈ child.state, l ∈ n.state ∨ m.Adds l := by
  obtain ⟨effects, state, heffects, hstate, rfl⟩ := apply_eq_ok_iff.mp h
  obtain ⟨σ, hσ, hinstances⟩ := Action.effectsFor_eq_ok_iff.mp heffects
  obtain ⟨rest, hrest, rfl⟩ := State.successor_eq_ok_iff.mp hstate
  intro l hl
  rcases List.mem_append.mp hl with hl | hl
  · exact Or.inl ((State.removeAll_eq_ok hrest).2.subset hl)
  · obtain ⟨e, he, happly⟩ := exists_of_mem_of_mapM_eq_ok hinstances hl
    exact Or.inr ⟨e, he, σ, hσ, happly⟩

end ClassicalPlanning
