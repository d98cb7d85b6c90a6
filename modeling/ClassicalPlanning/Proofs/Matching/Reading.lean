/-
Patterns read under a substitution.

Under a substitution a variable of a pattern stands for an object, if its name is bound or it
is a constant.  Facts that match patterns in step say what the patterns say under the
substitution of the match, so the substitution and the patterns are all that there is to know
about the facts.  The effects are read in the same way.

The main results are `propositions_of_unifyAll` and `propositions_of_effects`.
-/
import ClassicalPlanning.Proofs.Matching.Bindings

namespace ClassicalPlanning

namespace Substitution

variable {σ ρ τ : Substitution}

/-- What a variable of a pattern stands for under the substitution. -/
def referent (σ : Substitution) (v : Variable) : Referent :=
  match v.value.or (σ.get? v.name) with
  | some o => .constant o.name v.type
  | none => .placeholder v.name v.type

/-- What a pattern says under the substitution. -/
def proposition (σ : Substitution) (p : Literal) : Proposition :=
  ⟨p.head, p.arguments.map σ.referent⟩

lemma referent_eq_of_or_eq_some {v : Variable} {o : Object}
    (h : v.value.or (σ.get? v.name) = some o) : σ.referent v = .constant o.name v.type := by
  rw [referent, h]

lemma or_get?_of_extends {v : Variable} {o : Object} (hτ : τ.Extends σ)
    (h : v.value.or (σ.get? v.name) = some o) : v.value.or (τ.get? v.name) = some o := by
  cases hv : v.value with
  | some constant => simpa [hv] using h
  | none =>
    rw [hv, Option.none_or] at h
    exact hτ _ _ h

lemma referent_of_matchArgument {p v : Variable} (h : σ.matchArgument p v = .ok ρ)
    (hτ : τ.Extends ρ) : v.referent = τ.referent p := by
  obtain ⟨found, hv, htype, ⟨bound, hbound, hname, rfl⟩ | ⟨hnone, rfl⟩⟩ :=
    matchArgument_eq_ok_iff.mp h
  · rw [referent_eq_of_or_eq_some (or_get?_of_extends hτ hbound), Variable.referent, hv, hname,
      htype]
  · obtain ⟨hfree, -⟩ := Option.or_eq_none_iff.mp hnone
    have hget : τ.get? p.name = some found := hτ _ _ (by rw [get?_insert, if_pos rfl])
    have hor : p.value.or (τ.get? p.name) = some found := by rw [hfree, Option.none_or, hget]
    rw [referent_eq_of_or_eq_some hor, Variable.referent, hv, htype]

lemma referents_of_matchArguments {ps vs : List Variable} (hlength : ps.length = vs.length)
    (h : σ.matchArguments ps vs = .ok ρ) (hτ : τ.Extends ρ) :
    vs.map Variable.referent = ps.map τ.referent := by
  induction ps generalizing σ vs with
  | nil => rw [List.length_eq_zero_iff.mp hlength.symm, List.map_nil, List.map_nil]
  | cons p ps ih =>
    obtain _ | ⟨v, vs⟩ := vs
    · simp at hlength
    · obtain ⟨σ', hσ', hrest⟩ := matchArguments_cons_eq_ok_iff.mp h
      have hlength' : ps.length = vs.length := by simpa using hlength
      -- What the first argument binds is kept by the others.
      have hkeeps : τ.Extends σ' := fun x o hx =>
        hτ x o ((grown_of_matchArguments hlength' hrest).keeps x o hx)
      rw [List.map_cons, List.map_cons, referent_of_matchArgument hσ' hkeeps, ih hlength' hrest]

lemma proposition_of_matchLiteral {p l : Literal} (h : σ.matchLiteral p l = .ok ρ)
    (hτ : τ.Extends ρ) : l.proposition = τ.proposition p := by
  obtain ⟨hhead, hlength, harguments⟩ := matchLiteral_eq_ok_iff.mp h
  rw [Literal.proposition, proposition, hhead, referents_of_matchArguments hlength harguments hτ]

lemma propositions_of_matchLiterals {ps ls : List Literal} (hlength : ls.length = ps.length)
    (h : σ.matchLiterals ps ls = .ok ρ) (hτ : τ.Extends ρ) :
    ls.map Literal.proposition = ps.map τ.proposition := by
  induction ps generalizing σ ls with
  | nil => rw [List.length_eq_zero_iff.mp hlength, List.map_nil, List.map_nil]
  | cons p ps ih =>
    obtain _ | ⟨l, ls⟩ := ls
    · simp at hlength
    · obtain ⟨σ', hσ', hrest⟩ := matchLiterals_cons_eq_ok_iff.mp h
      have hlength' : ls.length = ps.length := by simpa using hlength
      have hkeeps : τ.Extends σ' := fun x o hx =>
        hτ x o ((grown_of_matchLiterals hlength' hrest).keeps x o hx)
      rw [List.map_cons, List.map_cons, proposition_of_matchLiteral hσ' hkeeps, ih hlength' hrest]

lemma referent_of_applyVariable {action : String} {v w : Variable}
    (h : σ.applyVariable action v = .ok w) : w.referent = σ.referent v := by
  rcases applyVariable_eq_ok_iff.mp h with ⟨hbound, rfl⟩ | ⟨hvalue, o, hget, -, rfl⟩
  · obtain ⟨constant, hvalue⟩ := Option.isSome_iff_exists.mp hbound
    rw [referent_eq_of_or_eq_some (o := constant) (by rw [hvalue, Option.some_or]),
      Variable.referent, hvalue]
  · rw [referent_eq_of_or_eq_some (o := o) (by rw [hvalue, Option.none_or, hget])]
    rfl

lemma proposition_of_applyLiteral {action : String} {e l : Literal}
    (h : σ.applyLiteral action e = .ok l) : l.proposition = σ.proposition e := by
  obtain ⟨arguments, harguments, rfl⟩ := applyLiteral_eq_ok_iff.mp h
  rw [proposition, ← map_eq_map_of_mapM_eq_ok (fun _ _ => referent_of_applyVariable) harguments]
  rfl

/-- Effects say what the schema says under the substitution. -/
lemma propositions_of_effects {action : String} {effects es : List Literal}
    (h : effects.mapM (σ.applyLiteral action) = .ok es) :
    es.map Literal.proposition = effects.map σ.proposition :=
  map_eq_map_of_mapM_eq_ok (fun _ _ => proposition_of_applyLiteral) h

end Substitution

section UnifyAll

variable {ps ls : List Literal} {σ : Substitution}

/-- Facts that match patterns say what the patterns say under the substitution. -/
theorem propositions_of_unifyAll (hlength : ls.length = ps.length)
    (h : unifyAll ps ls = .ok σ) : ls.map Literal.proposition = ps.map σ.proposition :=
  Substitution.propositions_of_matchLiterals hlength h fun _ _ hx => hx

/-- A match leaves no argument of a pattern open. -/
lemma exists_referent_of_unifyAll (hlength : ls.length = ps.length) (h : unifyAll ps ls = .ok σ)
    {p : Literal} (hp : p ∈ ps) {v : Variable} (hv : v ∈ p.arguments) :
    ∃ x, σ.referent v = .constant x v.type := by
  obtain ⟨o, ho⟩ : ∃ o, v.value.or (σ.get? v.name) = some o := by
    cases hvalue : v.value with
    | some constant => exact ⟨constant, rfl⟩
    | none => exact (exists_get?_iff hlength h v.name).mpr ⟨p, hp, v, hv, hvalue, rfl⟩
  exact ⟨o.name, Substitution.referent_eq_of_or_eq_some ho⟩

end UnifyAll

end ClassicalPlanning
