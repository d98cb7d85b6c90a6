/-
Facts that fit patterns.

Facts fit patterns under a substitution when they are ground and say, place by place, what the
patterns say under it.  This does not speak of the matcher, which works from left to right and
binds names as it meets them; but the matcher succeeds just if some substitution makes the facts
fit, and the one that it finds does so.  It cannot go astray, since what it has bound at any
moment is what every substitution under which the facts fit binds, up to the types of objects
(`Substitution.Within`).

The main result is `exists_unifyAll_iff_fits`.
-/
import ClassicalPlanning.Proofs.Matching.Reading

namespace ClassicalPlanning

namespace Substitution

/-- The facts are ground, and they say what the patterns say under the substitution. -/
structure Fits (σ : Substitution) (ps ls : List Literal) : Prop where
  ground : ∀ l ∈ ls, l.isGround
  propositions_eq : ls.map Literal.proposition = ps.map σ.proposition

/-- Every name that `σ` binds is bound by `τ` to an object of the same name. -/
def Within (σ τ : Substitution) : Prop :=
  ∀ x o, σ.get? x = some o → ∃ o', τ.get? x = some o' ∧ o'.name = o.name

variable {σ τ : Substitution} {ps ls : List Literal}

lemma Fits.length_eq (h : τ.Fits ps ls) : ls.length = ps.length := by
  simpa using congrArg List.length h.propositions_eq

lemma within_empty (τ : Substitution) : Within ∅ τ := by
  intro x o hx
  simp at hx

lemma Within.insert (h : σ.Within τ) {x : String} {o o' : Object} (hx : τ.get? x = some o')
    (hname : o'.name = o.name) : (σ.insert x o).Within τ := by
  intro y b hy
  rw [get?_insert] at hy
  split at hy
  next heq =>
    obtain rfl : o = b := Option.some.inj hy
    exact ⟨o', heq ▸ hx, hname⟩
  next => exact h y b hy

/-- A pattern that stands for what a bound variable stands for is a constant of the same object,
or its name is bound to one. -/
lemma exists_of_referent_eq {p v : Variable} {found : Object} (hv : v.value = some found)
    (h : v.referent = τ.referent p) : p.type = v.type ∧
      ∃ bound, p.value.or (τ.get? p.name) = some bound ∧ bound.name = found.name := by
  unfold Variable.referent referent at h
  rw [hv] at h
  cases hbound : p.value.or (τ.get? p.name) with
  | none => simp [hbound] at h
  | some bound =>
    rw [hbound, Referent.constant.injEq] at h
    exact ⟨h.2.symm, bound, rfl, h.1.symm⟩

/-- A literal is ground if it says what a pattern says that leaves no argument open. -/
lemma isGround_of_proposition_eq {p l : Literal}
    (hp : ∀ v ∈ p.arguments, ∃ x, τ.referent v = .constant x v.type)
    (h : l.proposition = τ.proposition p) : l.isGround := by
  refine List.all_eq_true.mpr fun w hw => ?_
  have hreferents := ((Proposition.mk.injEq ..).mp h).2
  obtain ⟨v, hv, hvw⟩ : ∃ v ∈ p.arguments, τ.referent v = w.referent :=
    List.mem_map.mp (hreferents ▸ List.mem_map_of_mem hw)
  obtain ⟨x, hx⟩ := hp v hv
  rw [hx] at hvw
  unfold Variable.referent at hvw
  cases hvalue : w.value with
  | some o => simp [Variable.isBound, hvalue]
  | none => simp [hvalue] at hvw

/-! ## Matching facts that fit -/

lemma exists_matchArgument_of_referent_eq {p v : Variable} (hv : v.isBound)
    (h : v.referent = τ.referent p) (hσ : σ.Within τ) :
    ∃ ρ, σ.matchArgument p v = .ok ρ ∧ ρ.Within τ := by
  obtain ⟨found, hfound⟩ := Option.isSome_iff_exists.mp hv
  obtain ⟨htype, bound, hbound, hname⟩ := exists_of_referent_eq hfound h
  cases hp : p.value with
  | some constant =>
    rw [hp, Option.some_or] at hbound
    obtain rfl : constant = bound := Option.some.inj hbound
    exact ⟨σ, matchArgument_eq_ok_iff.mpr
      ⟨found, hfound, htype, Or.inl ⟨constant, by rw [hp, Option.some_or], hname, rfl⟩⟩, hσ⟩
  | none =>
    rw [hp, Option.none_or] at hbound
    cases hget : σ.get? p.name with
    | some o =>
      -- The name is bound already, to an object of the name that it has under `τ`.
      obtain ⟨o', ho', honame⟩ := hσ p.name o hget
      obtain rfl : bound = o' := Option.some.inj (hbound.symm.trans ho')
      exact ⟨σ, matchArgument_eq_ok_iff.mpr ⟨found, hfound, htype,
        Or.inl ⟨o, by rw [hp, Option.none_or, hget], honame.symm.trans hname, rfl⟩⟩, hσ⟩
    | none =>
      exact ⟨σ.insert p.name found, matchArgument_eq_ok_iff.mpr ⟨found, hfound, htype,
        Or.inr ⟨by rw [hp, Option.none_or, hget], rfl⟩⟩, hσ.insert hbound hname⟩

lemma exists_matchArguments_of_referents_eq {ps vs : List Variable} (hvs : ∀ v ∈ vs, v.isBound)
    (h : vs.map Variable.referent = ps.map τ.referent) (hσ : σ.Within τ) :
    ∃ ρ, σ.matchArguments ps vs = .ok ρ ∧ ρ.Within τ := by
  induction ps generalizing σ vs with
  | nil => exact ⟨σ, by rw [List.map_eq_nil_iff.mp h, matchArguments.eq_def], hσ⟩
  | cons p ps ih =>
    obtain ⟨v, vs, rfl, hv, hrest⟩ := List.map_eq_cons_iff.mp h
    obtain ⟨hbound, hbounds⟩ := List.forall_mem_cons.mp hvs
    obtain ⟨ρ, hρ, hwithin⟩ := exists_matchArgument_of_referent_eq hbound hv hσ
    obtain ⟨ρ', hρ', hwithin'⟩ := ih hbounds hrest hwithin
    exact ⟨ρ', matchArguments_cons_eq_ok_iff.mpr ⟨ρ, hρ, hρ'⟩, hwithin'⟩

lemma exists_matchLiteral_of_proposition_eq {p l : Literal} (hl : l.isGround)
    (h : l.proposition = τ.proposition p) (hσ : σ.Within τ) :
    ∃ ρ, σ.matchLiteral p l = .ok ρ ∧ ρ.Within τ := by
  obtain ⟨hhead, hreferents⟩ := (Proposition.mk.injEq ..).mp h
  obtain ⟨ρ, hρ, hwithin⟩ :=
    exists_matchArguments_of_referents_eq (List.all_eq_true.mp hl) hreferents hσ
  have hlength : p.arguments.length = l.arguments.length := by
    simpa using (congrArg List.length hreferents).symm
  exact ⟨ρ, matchLiteral_eq_ok_iff.mpr ⟨hhead.symm, hlength, hρ⟩, hwithin⟩

/-- Facts that fit the patterns under some substitution are matched, from whatever part of it is
bound already. -/
lemma Fits.exists_matchLiterals (h : τ.Fits ps ls) (hσ : σ.Within τ) :
    ∃ ρ, σ.matchLiterals ps ls = .ok ρ ∧ ρ.Within τ := by
  obtain ⟨hground, hpropositions⟩ := h
  induction ps generalizing σ ls with
  | nil => exact ⟨σ, by rw [List.map_eq_nil_iff.mp hpropositions, matchLiterals.eq_def], hσ⟩
  | cons p ps ih =>
    obtain ⟨l, ls, rfl, hl, hrest⟩ := List.map_eq_cons_iff.mp hpropositions
    obtain ⟨hfact, hfacts⟩ := List.forall_mem_cons.mp hground
    obtain ⟨ρ, hρ, hwithin⟩ := exists_matchLiteral_of_proposition_eq hfact hl hσ
    obtain ⟨ρ', hρ', hwithin'⟩ := ih hwithin hfacts hrest
    exact ⟨ρ', matchLiterals_cons_eq_ok_iff.mpr ⟨ρ, hρ, hρ'⟩, hwithin'⟩

end Substitution

section UnifyAll

variable {ps ls : List Literal} {σ : Substitution}

/-- Facts fit the patterns that match them. -/
lemma fits_of_unifyAll (hlength : ls.length = ps.length) (h : unifyAll ps ls = .ok σ) :
    σ.Fits ps ls := by
  have hpropositions := propositions_of_unifyAll hlength h
  refine ⟨fun l hl => ?_, hpropositions⟩
  obtain ⟨p, hp, hpl⟩ : ∃ p ∈ ps, σ.proposition p = l.proposition :=
    List.mem_map.mp (hpropositions ▸ List.mem_map_of_mem hl)
  exact Substitution.isGround_of_proposition_eq
    (fun _ hv => exists_referent_of_unifyAll hlength h hp hv) hpl.symm

/-- Patterns match facts just if the facts fit them under some substitution. -/
theorem exists_unifyAll_iff_fits (hlength : ls.length = ps.length) :
    (∃ σ, unifyAll ps ls = .ok σ) ↔ ∃ τ : Substitution, τ.Fits ps ls := by
  constructor
  · rintro ⟨σ, hσ⟩
    exact ⟨σ, fits_of_unifyAll hlength hσ⟩
  · rintro ⟨τ, hτ⟩
    obtain ⟨σ, hσ, -⟩ := hτ.exists_matchLiterals (Substitution.within_empty τ)
    exact ⟨σ, hσ⟩

end UnifyAll

end ClassicalPlanning
