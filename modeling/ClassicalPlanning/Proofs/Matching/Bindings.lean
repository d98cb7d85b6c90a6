/-
What a match binds.

A match adds to a substitution the free variables of the patterns, and nothing else: each
of them is bound afterwards, to the object that fills the place where it first met one, and
that place has the type of the variable.  This is all that is ever needed of the bindings,
so it is stated once, as `Substitution.Grown`, and follows the matcher through arguments,
literals and lists of literals.

The main results are `grown_of_matchLiterals` and, for the match of a whole list of
patterns, `exists_get?_iff`: the bound names are the names of the free variables.
-/
import ClassicalPlanning.Proofs.Matching.Likeness

namespace ClassicalPlanning

namespace Substitution

/-- The substitution `τ` is `σ` with the bindings that the patterns `ps` got from the
variables `vs`. -/
structure Grown (ps vs : List Variable) (σ τ : Substitution) : Prop where
  /-- No binding is lost or changed. -/
  keeps : τ.Extends σ
  /-- All free variables of the patterns are bound. -/
  covers : ∀ p ∈ ps, p.value = none → ∃ o, τ.get? p.name = some o
  /-- A new binding is that of a free variable of the patterns to the value of a variable of
  its type. -/
  origin : ∀ x o, τ.get? x = some o → σ.get? x = some o ∨
    ∃ p ∈ ps, ∃ v ∈ vs, p.value = none ∧ p.name = x ∧ v.value = some o ∧ p.type = v.type

variable {σ ρ τ : Substitution}

lemma Grown.refl (σ : Substitution) : Grown [] [] σ σ where
  keeps _ _ h := h
  covers := by simp
  origin _ _ h := Or.inl h

lemma Grown.append {ps ps' vs vs' : List Variable} (h : Grown ps vs σ ρ)
    (h' : Grown ps' vs' ρ τ) : Grown (ps ++ ps') (vs ++ vs') σ τ where
  keeps x o hx := h'.keeps x o (h.keeps x o hx)
  covers p hp hfree := by
    rcases List.mem_append.mp hp with hp | hp
    · obtain ⟨o, ho⟩ := h.covers p hp hfree
      exact ⟨o, h'.keeps _ _ ho⟩
    · exact h'.covers p hp hfree
  origin x o hx := by
    rcases h'.origin x o hx with hx | ⟨p, hp, v, hv, hbinding⟩
    · rcases h.origin x o hx with hx | ⟨p, hp, v, hv, hbinding⟩
      · exact Or.inl hx
      · exact Or.inr ⟨p, List.mem_append_left _ hp, v, List.mem_append_left _ hv, hbinding⟩
    · exact Or.inr ⟨p, List.mem_append_right _ hp, v, List.mem_append_right _ hv, hbinding⟩

lemma grown_of_matchArgument {p v : Variable} (h : σ.matchArgument p v = .ok τ) :
    Grown [p] [v] σ τ := by
  obtain ⟨found, hv, htype, ⟨bound, hbound, -, rfl⟩ | ⟨hnone, rfl⟩⟩ := matchArgument_eq_ok_iff.mp h
  -- The pattern is a constant, or its name is bound already: nothing is added.
  · refine ⟨fun _ _ hx => hx, ?_, fun _ _ hx => Or.inl hx⟩
    intro q hq hfree
    obtain rfl := List.mem_singleton.mp hq
    rw [hfree, Option.none_or] at hbound
    exact ⟨bound, hbound⟩
  · obtain ⟨hfree, hunbound⟩ := Option.or_eq_none_iff.mp hnone
    refine ⟨fun x o hx => ?_, fun q hq _ => ?_, fun x o hx => ?_⟩
    · have hne : ¬ x = p.name := by
        rintro rfl
        simp [hunbound] at hx
      rw [get?_insert, if_neg hne, hx]
    · obtain rfl := List.mem_singleton.mp hq
      exact ⟨found, by rw [get?_insert, if_pos rfl]⟩
    · rw [get?_insert] at hx
      split at hx
      next hname =>
        exact Or.inr ⟨p, List.mem_singleton_self p, v, List.mem_singleton_self v, hfree, hname.symm,
          hv.trans hx, htype⟩
      next => exact Or.inl hx

lemma grown_of_matchArguments {ps vs : List Variable} (hlength : ps.length = vs.length)
    (h : σ.matchArguments ps vs = .ok τ) : Grown ps vs σ τ := by
  induction ps generalizing σ vs with
  | nil =>
    obtain rfl : vs = [] := List.length_eq_zero_iff.mp hlength.symm
    obtain rfl : σ = τ := by simpa [matchArguments] using h
    exact .refl σ
  | cons p ps ih =>
    obtain _ | ⟨v, vs⟩ := vs
    · simp at hlength
    · obtain ⟨ρ, hρ, hrest⟩ := matchArguments_cons_eq_ok_iff.mp h
      exact (grown_of_matchArgument hρ).append (ih (by simpa using hlength) hrest)

lemma grown_of_matchLiteral {p l : Literal} (h : σ.matchLiteral p l = .ok τ) :
    Grown p.arguments l.arguments σ τ := by
  obtain ⟨-, hlength, harguments⟩ := matchLiteral_eq_ok_iff.mp h
  exact grown_of_matchArguments hlength harguments

lemma grown_of_matchLiterals {ps ls : List Literal} (hlength : ls.length = ps.length)
    (h : σ.matchLiterals ps ls = .ok τ) :
    Grown (ps.flatMap Literal.arguments) (ls.flatMap Literal.arguments) σ τ := by
  induction ps generalizing σ ls with
  | nil =>
    obtain rfl : ls = [] := List.length_eq_zero_iff.mp hlength
    obtain rfl : σ = τ := by simpa [matchLiterals] using h
    exact .refl σ
  | cons p ps ih =>
    obtain _ | ⟨l, ls⟩ := ls
    · simp at hlength
    · obtain ⟨ρ, hl, hrest⟩ := matchLiterals_cons_eq_ok_iff.mp h
      exact (grown_of_matchLiteral hl).append (ih (by simpa using hlength) hrest)

end Substitution

section UnifyAll

variable {ps ls : List Literal} {σ : Substitution}

/-- The names that a match binds are those of the free variables of the patterns. -/
lemma exists_get?_iff (hlength : ls.length = ps.length) (h : unifyAll ps ls = .ok σ)
    (x : String) :
    (∃ o, σ.get? x = some o) ↔ ∃ p ∈ ps, ∃ v ∈ p.arguments, v.value = none ∧ v.name = x := by
  have hgrown := Substitution.grown_of_matchLiterals hlength h
  constructor
  · rintro ⟨o, ho⟩
    rcases hgrown.origin x o ho with hempty | ⟨v, hv, -, -, hfree, hname, -⟩
    · simp at hempty
    · obtain ⟨p, hp, hvp⟩ := List.mem_flatMap.mp hv
      exact ⟨p, hp, v, hvp, hfree, hname⟩
  · rintro ⟨p, hp, v, hv, hfree, rfl⟩
    exact hgrown.covers v (List.mem_flatMap.mpr ⟨p, hp, hv⟩) hfree

/-- Facts that are well typed bind a name to an object of the type of a free variable of that
name. -/
lemma exists_of_get?_of_wellTyped (hlength : ls.length = ps.length) (h : unifyAll ps ls = .ok σ)
    (hls : ∀ l ∈ ls, l.WellTyped) {x : String} {o : Object} (hx : σ.get? x = some o) :
    ∃ p ∈ ps, ∃ v ∈ p.arguments, v.value = none ∧ v.name = x ∧ o.type = v.type := by
  rcases (Substitution.grown_of_matchLiterals hlength h).origin x o hx with
    hempty | ⟨v, hv, w, hw, hfree, hname, hvalue, htype⟩
  · simp at hempty
  · obtain ⟨p, hp, hvp⟩ := List.mem_flatMap.mp hv
    obtain ⟨l, hl, hwl⟩ := List.mem_flatMap.mp hw
    exact ⟨p, hp, v, hvp, hfree, hname, (hls l hl w hwl o hvalue).trans htype.symm⟩

end UnifyAll

end ClassicalPlanning
