/-
The facts that a move may take.

The facts of a move need not come from the matcher, so an application matches them against the
preconditions once more and looks for them in the state.  It goes through preconditions and facts
in step and stops where either of them ends.  Hence what is matched are as many facts as there
are preconditions, or fewer; facts beyond the last precondition are not matched, and still they
are taken out of the state, and preconditions beyond the last fact are not asked for.

For groundings with one fact for each precondition this makes no difference: only facts that fit
are taken, and the state grows by the effects less the preconditions.  This is the main result,
`apply_fits`; `fits_of_apply` says what is known of all groundings.  With more facts or fewer
both can fail (`race_apply_misfits`).
-/
import ClassicalPlanning.Proofs.Matching.Fit
import ClassicalPlanning.Proofs.Race
import ClassicalPlanning.Proofs.Search.Provenance
import ClassicalPlanning.Proofs.State.Replacement

namespace ClassicalPlanning

/-! ## Matching in step -/

section Steps

variable {σ : Substitution} {ps ls : List Literal}

lemma Substitution.matchLiterals_take :
    σ.matchLiterals (ps.take ls.length) (ls.take ps.length) = σ.matchLiterals ps ls := by
  induction ps generalizing σ ls with
  | nil => simp [matchLiterals.eq_def]
  | cons p ps ih =>
    cases ls with
    | nil => simp [matchLiterals.eq_def]
    | cons l ls =>
      rw [List.length_cons, List.length_cons, List.take_succ_cons, List.take_succ_cons]
      simp only [matchLiterals, ih]

/-- A match stops where the patterns or the facts end. -/
lemma unifyAll_take : unifyAll (ps.take ls.length) (ls.take ps.length) = unifyAll ps ls :=
  Substitution.matchLiterals_take

/-- Patterns match facts just if these fit, as far as both go. -/
lemma exists_unifyAll_iff_fits_take : (∃ σ, unifyAll ps ls = .ok σ) ↔
    ∃ τ : Substitution, τ.Fits (ps.take ls.length) (ls.take ps.length) := by
  rw [← unifyAll_take]
  exact exists_unifyAll_iff_fits (by rw [List.length_take, List.length_take, Nat.min_comm])

end Steps

/-! ## Applications -/

section Applications

variable {n child : Node} {m : Move}

/-- What is known of every application that goes through: the facts fit the preconditions as far
as both go, the state contains them, and they are replaced by the effects. -/
theorem fits_of_apply (h : n.apply m = .ok child) :
    (∃ σ : Substitution, σ.Fits (m.action.preconditions.take m.grounding.matched.length)
      (m.grounding.matched.take m.action.preconditions.length)) ∧
    n.state.Contains m.grounding.matched ∧
    child.state.length + m.grounding.matched.length =
      n.state.length + m.action.effects.length := by
  obtain ⟨effects, state, heffects, hstate, rfl⟩ := apply_eq_ok_iff.mp h
  obtain ⟨σ, hσ, hinstances⟩ := Action.effectsFor_eq_ok_iff.mp heffects
  have hlength : m.action.effects.length = effects.length :=
    (mapM_eq_ok_iff.mp hinstances).length_eq
  refine ⟨exists_unifyAll_iff_fits_take.mp ⟨σ, hσ⟩, State.contains_of_successor hstate, ?_⟩
  rw [hlength, Nat.add_comm]
  exact State.length_of_successor hstate

/-- Facts that do not fit the preconditions, as far as both go, are turned away. -/
lemma apply_eq_error_of_not_fits
    (h : ∀ σ : Substitution, ¬ σ.Fits (m.action.preconditions.take m.grounding.matched.length)
      (m.grounding.matched.take m.action.preconditions.length)) :
    ∃ cause, n.apply m = .error (.invalidGrounding m.action.name (.unmatched cause)) := by
  cases hunify : unifyAll m.action.preconditions m.grounding.matched with
  | ok σ =>
    obtain ⟨τ, hτ⟩ := exists_unifyAll_iff_fits_take.mp ⟨σ, hunify⟩
    exact absurd hτ (h τ)
  | error cause => exact ⟨cause, by simp [Node.apply, Action.effectsFor, hunify, bind, Except.bind]⟩

/-- Of the groundings with one fact for each precondition only those are applied whose facts fit
the preconditions and are contained in the state, and those that do not fit are turned away.  An
application takes one fact out of the state for each precondition and adds the effects. -/
theorem apply_fits (n : Node) (m : Move)
    (hlength : m.grounding.matched.length = m.action.preconditions.length) :
    (∀ child, n.apply m = .ok child →
      (∃ σ, unifyAll m.action.preconditions m.grounding.matched = .ok σ ∧
        σ.Fits m.action.preconditions m.grounding.matched) ∧
      n.state.Contains m.grounding.matched ∧
      child.state.length + m.action.preconditions.length =
        n.state.length + m.action.effects.length) ∧
    ((∀ σ : Substitution, ¬ σ.Fits m.action.preconditions m.grounding.matched) →
      ∃ cause, n.apply m = .error (.invalidGrounding m.action.name (.unmatched cause))) := by
  have hps : m.action.preconditions.take m.grounding.matched.length = m.action.preconditions :=
    List.take_of_length_le hlength.ge
  have hls : m.grounding.matched.take m.action.preconditions.length = m.grounding.matched :=
    List.take_of_length_le hlength.le
  constructor
  · intro child hchild
    obtain ⟨hfits, hcontains, hsize⟩ := fits_of_apply hchild
    rw [hps, hls] at hfits
    obtain ⟨σ, hσ⟩ := (exists_unifyAll_iff_fits hlength).mpr hfits
    exact ⟨⟨σ, hσ, fits_of_unifyAll hlength hσ⟩, hcontains, hlength ▸ hsize⟩
  · intro hmisfit
    exact apply_eq_error_of_not_fits (by rwa [hps, hls])

end Applications

/-- The walker, who is at `a`, takes a link that begins at `b`. -/
def Walk.astray : Move where
  action := Walk.step
  grounding := ⟨[Walk.here (Walk.place "a"), Walk.link (Walk.place "b") (Walk.place "c")]⟩

/-- The walker takes the first link, whichever variable the facts are written with.  A link that
does not begin where the walker is does not fit. -/
theorem walk_apply_fits :
    (∃ child, (Walk.problem ["a", "b", "c"] "c").root.apply Walk.first = .ok child ∧
      (∃ σ, unifyAll Walk.step.preconditions Walk.first.grounding.matched = .ok σ ∧
        σ.Fits Walk.step.preconditions Walk.first.grounding.matched) ∧
      child.state.length + 2 = 3 + 3) ∧
    ∃ cause, (Walk.problem ["a", "b", "c"] "c").root.apply Walk.astray =
      .error (.invalidGrounding Walk.step.name (.unmatched cause)) := by
  constructor
  · obtain ⟨child, hchild⟩ : ∃ child,
        (Walk.problem ["a", "b", "c"] "c").root.apply Walk.first = .ok child := ⟨_, rfl⟩
    obtain ⟨hfits, -, hsize⟩ := (apply_fits _ Walk.first rfl).1 child hchild
    exact ⟨child, hchild, hfits, hsize⟩
  · refine (apply_fits _ Walk.astray rfl).2 fun σ hσ => ?_
    obtain ⟨τ, hτ⟩ := (exists_unifyAll_iff_fits hσ.length_eq).mpr ⟨σ, hσ⟩
    have hconflict : unifyAll Walk.step.preconditions Walk.astray.grounding.matched =
      .error (.conflict "?from" "a" "b") := rfl
    exact absurd (hconflict.symm.trans hτ) (by simp)

/-! ## Too many facts, and too few -/

/-- Three runners are still racing. -/
def Race.field : Node :=
  .root { Race.problem with
    state := [Race.fact "runs" (Race.runner "a"), Race.fact "runs" (Race.runner "b"),
      Race.fact "runs" (Race.runner "c")] }

/-- The race is ended by the given runners. -/
def Race.ending (runners : List String) : Move where
  action := Race.finish
  grounding := ⟨runners.map fun name => Race.fact "runs" (Race.runner name)⟩

/-- A race for two can be ended by three runners, and by one. -/
theorem race_apply_misfits :
    (∃ child, Race.field.apply (Race.ending ["a", "b", "c"]) = .ok child ∧
      (Race.ending ["a", "b", "c"]).grounding.matched.length ≠ Race.finish.preconditions.length ∧
      child.state.length + Race.finish.preconditions.length ≠
        Race.field.state.length + Race.finish.effects.length) ∧
    ∃ child, Race.field.apply (Race.ending ["a"]) = .ok child ∧
      (Race.ending ["a"]).grounding.matched.length ≠ Race.finish.preconditions.length ∧
      child.state.length + Race.finish.preconditions.length ≠
        Race.field.state.length + Race.finish.effects.length :=
  ⟨⟨_, rfl, by decide, by decide⟩, ⟨_, rfl, by decide, by decide⟩⟩

end ClassicalPlanning
