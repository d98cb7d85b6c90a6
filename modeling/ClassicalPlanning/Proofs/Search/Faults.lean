/-
Faults of a search.

The facts of a grounding are matched a second time when the action is applied, by going
through preconditions and facts in step, and they are taken out of the state by what they
say, not by the places at which the matcher found them.  Both always succeed, whatever the
action and the state: the match is the one that the matcher has made, and the facts are
among the content of the state.  So what can be at fault in an application are the effects
alone, when one of their free variables has no value or a value of another type.

This is the main result, `groundings_progress`.
-/
import ClassicalPlanning.Proofs.Matching.Arrangement
import ClassicalPlanning.Proofs.Matching.Bindings
import ClassicalPlanning.Proofs.Search.Run
import ClassicalPlanning.Proofs.Walk

namespace ClassicalPlanning

/-- The fault is that of a free variable in an effect of the move: the match of the
preconditions gives its name no value, or a value of another type. -/
inductive Move.EffectFault (m : Move) : Fault → Prop
  /-- The name has no value. -/
  | unbound {σ : Substitution} {e : Literal} {v : Variable}
      (hσ : unifyAll m.action.preconditions m.grounding.matched = .ok σ)
      (he : e ∈ m.action.effects) (hv : v ∈ e.arguments) (hfree : v.value = none)
      (hget : σ.get? v.name = none) :
      m.EffectFault (.unboundEffectVariable m.action.name v.name)
  /-- The value has another type than the variable. -/
  | mismatched {σ : Substitution} {e : Literal} {v : Variable} {o : Object}
      (hσ : unifyAll m.action.preconditions m.grounding.matched = .ok σ)
      (he : e ∈ m.action.effects) (hv : v ∈ e.arguments) (hfree : v.value = none)
      (hget : σ.get? v.name = some o) (htype : o.type ≠ v.type) :
      m.EffectFault (.typeMismatch v.name v.type o.type)

/-! ## Effects -/

namespace Substitution

variable {σ : Substitution} {action : String} {fault : Fault}

lemma applyVariable_eq_error_iff {v : Variable} :
    σ.applyVariable action v = .error fault ↔ v.value = none ∧
      ((σ.get? v.name = none ∧ fault = .unboundEffectVariable action v.name) ∨
        ∃ o, σ.get? v.name = some o ∧ o.type ≠ v.type ∧
          fault = .typeMismatch v.name v.type o.type) := by
  unfold applyVariable Variable.bind Variable.isBound
  cases hv : v.value with
  | some constant => simp
  | none =>
    cases hget : σ.get? v.name with
    | none => simp [eq_comm]
    | some o =>
      by_cases htype : o.type = v.type
      · simp [htype]
      · simpa [htype, Ne.symm htype] using eq_comm

lemma exists_of_applyLiteral_eq_error {e : Literal} (h : σ.applyLiteral action e = .error fault) :
    ∃ v ∈ e.arguments, σ.applyVariable action v = .error fault := by
  rw [applyLiteral, bind_eq_error_iff] at h
  rcases h with h | ⟨arguments, -, h⟩
  · exact exists_of_mapM_eq_error h
  · simp [pure, Except.pure] at h

end Substitution

/-- The effects of a move can be at fault only through their variables, if the facts match
the preconditions. -/
lemma effectFault_of_effectsFor {m : Move} {σ : Substitution} {fault : Fault}
    (hσ : unifyAll m.action.preconditions m.grounding.matched = .ok σ)
    (h : m.action.effectsFor m.grounding = .error fault) : m.EffectFault fault := by
  rw [Action.effectsFor, hσ] at h
  obtain ⟨e, he, hfault⟩ := exists_of_mapM_eq_error h
  obtain ⟨v, hv, hfault⟩ := Substitution.exists_of_applyLiteral_eq_error hfault
  obtain ⟨hfree, ⟨hget, rfl⟩ | ⟨o, hget, htype, rfl⟩⟩ :=
    Substitution.applyVariable_eq_error_iff.mp hfault
  · exact .unbound hσ he hv hfree hget
  · exact .mismatched hσ he hv hfree hget htype

/-! ## Applications -/

lemma exists_successor {a : Action} {s : State} {g : Grounding} (hg : g ∈ a.groundings s)
    (name : String) (effects : List Literal) :
    ∃ t, s.successor name g.matched effects = .ok t := by
  obtain ⟨-, ⟨rest, hperm⟩, -⟩ := of_mem_groundings hg
  obtain ⟨others, hothers⟩ := State.exists_removeAll (SameContent.of_perm hperm.symm)
  exact ⟨others ++ effects, State.successor_eq_ok_iff.mpr ⟨others, hothers, rfl⟩⟩

/-- An application of a grounding is at fault only through the effects. -/
lemma effectFault_of_apply {n : Node} {m : Move} {fault : Fault}
    (hg : m.grounding ∈ m.action.groundings n.state) (h : n.apply m = .error fault) :
    m.EffectFault fault := by
  obtain ⟨-, -, σ, hσ⟩ := of_mem_groundings hg
  rw [Node.apply, bind_eq_error_iff] at h
  rcases h with heffects | ⟨effects, -, h⟩
  · exact effectFault_of_effectsFor hσ heffects
  -- With its effects at hand, the application goes through.
  · obtain ⟨t, ht⟩ := exists_successor hg m.action.name effects
    rw [bind_eq_error_iff, ht] at h
    rcases h with h | ⟨_, -, h⟩
    · simp at h
    · simp [pure, Except.pure] at h

/-- The facts of a grounding match the preconditions, which binds the names of the free
variables of the preconditions and no others; and they can be taken out of the state.  So the
faults of applications, and of searches, are those of variables in effects. -/
theorem groundings_progress :
    (∀ (a : Action) (s : State), ∀ g ∈ a.groundings s,
      (∃ σ, unifyAll a.preconditions g.matched = .ok σ ∧
        ∀ x, (∃ o, σ.get? x = some o) ↔
          ∃ p ∈ a.preconditions, ∃ v ∈ p.arguments, v.value = none ∧ v.name = x) ∧
      ∀ name effects, ∃ t, s.successor name g.matched effects = .ok t) ∧
    (∀ (n : Node) (a : Action), ∀ g ∈ a.groundings n.state, ∀ fault,
      n.apply ⟨a, g⟩ = .error fault → (⟨a, g⟩ : Move).EffectFault fault) ∧
    ∀ (p : Problem) (limits : SearchLimits) (fuel : ℕ) (fault : Fault),
      p.search? limits fuel = some (.error fault) →
        ∃ n, p.HasNode n ∧ ∃ m ∈ (n.survey p.domain.actions).moves, m.EffectFault fault := by
  refine ⟨fun a s g hg => ⟨?_, exists_successor hg⟩,
    fun n a g hg fault h => effectFault_of_apply hg h, fun p limits fuel fault h => ?_⟩
  · obtain ⟨hlength, -, σ, hσ⟩ := of_mem_groundings hg
    exact ⟨σ, hσ, exists_get?_iff hlength hσ⟩
  · obtain ⟨n, m, hn, hm, happly⟩ := exists_apply_of_search?_error h
    exact ⟨n, hn, m, hm, effectFault_of_apply (mem_moves_survey.mp hm).2 happly⟩

/-- In a state with a fact that is not well typed and one that is not ground, the walker's step
has a grounding that binds both ends of the link.  Where the line forks, a search comes upon
the fault of an effect. -/
theorem walk_groundings_progress :
    (∃ g ∈ Walk.step.groundings [Walk.here ((Walk.free "?x").fill ⟨"a", "person"⟩),
        Walk.here (Walk.free "?x"), Walk.link (Walk.place "a") (Walk.place "b")],
      (∃ σ, unifyAll Walk.step.preconditions g.matched = .ok σ ∧ ∃ o, σ.get? "?to" = some o) ∧
        ∃ t, State.successor "step" [Walk.here ((Walk.free "?x").fill ⟨"a", "person"⟩),
          Walk.here (Walk.free "?x"), Walk.link (Walk.place "a") (Walk.place "b")] g.matched []
            = .ok t) ∧
    ∃ fault, Walk.fork.search? {} 2 = some (.error fault) ∧ ∃ n, Walk.fork.HasNode n ∧
      ∃ m ∈ (n.survey [Walk.step, Walk.stumble]).moves, m.EffectFault fault := by
  obtain ⟨hgroundings, -, hsearch⟩ := groundings_progress
  constructor
  · obtain ⟨g, hg⟩ := List.exists_mem_of_ne_nil
      (Walk.step.groundings [Walk.here ((Walk.free "?x").fill ⟨"a", "person"⟩),
        Walk.here (Walk.free "?x"), Walk.link (Walk.place "a") (Walk.place "b")])
      (by decide +kernel)
    obtain ⟨⟨σ, hσ, hbound⟩, hsuccessor⟩ := hgroundings _ _ g hg
    exact ⟨g, hg, ⟨σ, hσ, (hbound "?to").mpr (by decide)⟩, hsuccessor "step" []⟩
  · exact ⟨_, rfl, hsearch Walk.fork {} 2 _ rfl⟩

end ClassicalPlanning
