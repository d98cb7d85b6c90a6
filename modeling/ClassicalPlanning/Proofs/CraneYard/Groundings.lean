/-
Groundings and operations.

Facts that match the preconditions of an action say what some operation uses up, and the
effects assert what the operation makes true (`exists_operation`).  In a state that describes
a layout there is one grounding for each operation that can be carried out there, and there
are no others: this is the main result, `perm_groundings`.  Denied facts do not matter.
-/
import ClassicalPlanning.Proofs.CraneYard.Operation
import ClassicalPlanning.Proofs.Matching.Reading

namespace ClassicalPlanning.CraneYard

/-- What the facts say that the operation uses up, in the order of the preconditions. -/
def Operation.premises (o : Operation) : List Proposition :=
  o.consumed.map fun f => f.literal.proposition

/-! ## The actions -/

section Actions

variable {a : Action} {ms : List Literal} {σ : Substitution}

lemma asksPositive_of_mem (ha : a ∈ domain.actions) : a.AsksPositive := by
  have h : ∀ a ∈ domain.actions, ∀ p ∈ a.preconditions, p.isNegative = false := by decide
  exact h a ha

lemma nodup_heads_of_mem (ha : a ∈ domain.actions) :
    (a.preconditions.map Literal.head).Nodup := by
  have h : ∀ a ∈ domain.actions, (a.preconditions.map Literal.head).Nodup := by decide
  exact h a ha

lemma Operation.action_mem (o : Operation) : o.action ∈ domain.actions := by
  cases o with
  | pickUp => exact List.mem_cons_self
  | putDown => exact List.mem_cons_of_mem _ List.mem_cons_self

lemma proposition_asserted (σ : Substitution) (predicate : String) (vs : List Variable) :
    σ.proposition (asserted predicate vs) = ⟨⟨.positive, predicate⟩, vs.map σ.referent⟩ := rfl

lemma proposition_denied (σ : Substitution) (predicate : String) (vs : List Variable) :
    σ.proposition (denied predicate vs) = ⟨⟨.negative, predicate⟩, vs.map σ.referent⟩ := rfl

/-- A match gives the arm, the container, what is below it and the stack. -/
lemma exists_referent (ha : a ∈ domain.actions) (hlength : ms.length = a.preconditions.length)
    (h : unifyAll a.preconditions ms = .ok σ) {v : Variable} (hv : v ∈ [k, c, other, p]) :
    ∃ x, σ.referent v = .constant x v.type := by
  have hoccurs : ∀ a ∈ domain.actions, ∀ v ∈ [k, c, other, p],
      ∃ p ∈ a.preconditions, v ∈ p.arguments := by decide
  obtain ⟨p, hp, hvp⟩ := hoccurs a ha v hv
  exact exists_referent_of_unifyAll hlength h hp hvp

/-- Facts that match the preconditions say what an operation uses up, and then the asserted
effects are what it makes true. -/
theorem exists_operation (ha : a ∈ domain.actions) (hlength : ms.length = a.preconditions.length)
    (h : unifyAll a.preconditions ms = .ok σ) :
    ∃ o : Operation, o.action = a ∧ ms.map Literal.proposition = o.premises ∧
      ∀ effects, a.effects.mapM (σ.applyLiteral a.name) = .ok effects →
        SameContent (State.positives effects) (o.added.map Atom.literal) := by
  obtain ⟨b, hk⟩ : ∃ b, σ.referent k = .constant b arm := exists_referent ha hlength h (by decide)
  obtain ⟨x, hc⟩ : ∃ x, σ.referent c = .constant x container :=
    exists_referent ha hlength h (by decide)
  obtain ⟨z, hother⟩ : ∃ z, σ.referent other = .constant z container :=
    exists_referent ha hlength h (by decide)
  obtain ⟨q, hp⟩ : ∃ q, σ.referent p = .constant q stack :=
    exists_referent ha hlength h (by decide)
  have hactions : a = pickUp ∨ a = putDown := by simpa [domain, Domain.ofDeclarations] using ha
  rcases hactions with rfl | rfl
  · refine ⟨.pickUp b x z q, rfl, ?_, fun effects heffects => List.Perm.of_eq ?_⟩
    · rw [propositions_of_unifyAll hlength h]
      simp [pickUp, proposition_asserted, hk, hc, hother, hp, Operation.premises,
        Operation.consumed, Atom.proposition_literal]
    · rw [map_proposition_positives, Substitution.propositions_of_effects heffects]
      simp [pickUp, proposition_asserted, proposition_denied, hk, hc, hother, hp,
        Operation.added, Atom.proposition_literal]
  · refine ⟨.putDown b x z q, rfl, ?_, fun effects heffects => List.Perm.of_eq ?_⟩
    · rw [propositions_of_unifyAll hlength h]
      simp [putDown, proposition_asserted, hk, hc, hother, hp, Operation.premises,
        Operation.consumed, Atom.proposition_literal]
    · rw [map_proposition_positives, Substitution.propositions_of_effects heffects]
      simp [putDown, proposition_asserted, proposition_denied, hk, hc, hother, hp,
        Operation.added, Atom.proposition_literal]

/-- The literals of what an operation uses up match the preconditions. -/
lemma Operation.exists_unifyAll (o : Operation) :
    ∃ σ, unifyAll o.action.preconditions (o.consumed.map Atom.literal) = .ok σ := by
  cases o <;>
    simp [action, consumed, CraneYard.pickUp, CraneYard.putDown, Atom.literal, asserted, c, k, p,
      other, Variable.free, Variable.fill, unifyAll, Substitution.matchLiterals,
      Substitution.matchLiteral, Substitution.matchArguments, Substitution.matchArgument,
      Literal.head, bind, Except.bind]

/-- What an operation uses up tells it from all others. -/
lemma Operation.premises_injective : Function.Injective Operation.premises := by
  intro o o' h
  have hconsumed : o.consumed = o'.consumed :=
    List.map_injective_iff.mpr Atom.proposition_literal_injective h
  cases o <;> cases o' <;> simp_all [consumed]

end Actions

/-! ## The groundings in a state that describes a layout -/

namespace Layout

variable {y : Yard} {l : Layout y} {s : State} {a : Action} {g : Grounding} {o : Operation}

lemma DescribedBy.nodup (h : l.DescribedBy s) : (s.positives.map Literal.proposition).Nodup := by
  have hatoms : ((l.atoms.map Atom.literal).map Literal.proposition).Nodup := by
    rw [List.map_map]
    exact l.nodup_atoms.map Atom.proposition_literal_injective
  exact (List.Perm.nodup_iff h).mpr hatoms

lemma DescribedBy.mem_atoms_iff (h : l.DescribedBy s) {f : Atom} :
    f ∈ l.atoms ↔ f.literal.proposition ∈ s.positives.map Literal.proposition := by
  rw [List.Perm.mem_iff h, List.map_map]
  exact (List.mem_map_of_injective Atom.proposition_literal_injective).symm

/-- What can be told of the layout can be found in the state. -/
lemma DescribedBy.exists_rest (h : l.DescribedBy s) {fs others : List Atom}
    (hatoms : l.atoms.Perm (fs ++ others)) :
    ∃ rest, SameContent (fs.map Atom.literal ++ rest) s := by
  refine ⟨others.map Atom.literal ++ s.filter fun l => l.isNegative, ?_⟩
  have hpositives : SameContent (fs.map Atom.literal ++ others.map Atom.literal) s.positives := by
    rw [← List.map_append]
    exact (SameContent.of_perm (hatoms.symm.map _)).trans h.symm
  rw [← List.append_assoc]
  exact (hpositives.append (.refl _)).trans (SameContent.of_perm (perm_positives_append s))

/-- The facts of a grounding say what an operation uses up that can be carried out. -/
lemma DescribedBy.consumed_subset (h : l.DescribedBy s) (ha : a ∈ domain.actions)
    (hg : g ∈ a.groundings s) (ho : g.premises = o.premises) : o.consumed ⊆ l.atoms := by
  intro f hf
  rw [h.mem_atoms_iff]
  have hpremise : f.literal.proposition ∈ g.premises := ho ▸ List.mem_map_of_mem hf
  obtain ⟨m, hm, hsame⟩ := List.mem_map.mp hpremise
  exact hsame ▸ List.mem_map_of_mem
    (mem_positives_of_mem_groundings (asksPositive_of_mem ha) hg hm)

/-- An operation that can be carried out has a grounding. -/
lemma DescribedBy.exists_grounding (h : l.DescribedBy s) (ho : o.consumed ⊆ l.atoms) :
    ∃ g ∈ o.action.groundings s, g.premises = o.premises := by
  obtain ⟨l', hstep⟩ := exists_step ho
  obtain ⟨others, hatoms, -⟩ := hstep.exists_others
  obtain ⟨rest, hrest⟩ := h.exists_rest hatoms
  obtain ⟨σ, hσ⟩ := o.exists_unifyAll
  have hlength : (o.consumed.map Atom.literal).length = o.action.preconditions.length := by
    cases o <;> rfl
  obtain ⟨g, hg, hcontent⟩ := exists_grounding_of_unifyAll hlength hσ hrest
  refine ⟨g, hg, ?_⟩
  -- The heads of the preconditions are distinct, so the facts have one order only.
  have hheads : (o.consumed.map Atom.literal).map Literal.head =
      o.action.preconditions.map Literal.head := by cases o <;> rfl
  have hsame := propositions_eq_of_heads_eq hcontent
    (hheads.trans (heads_eq_of_mem_groundings hg).symm)
    (hheads ▸ nodup_heads_of_mem o.action_mem)
  rw [Grounding.premises, ← hsame, List.map_map]
  rfl

/-- In a state that describes a layout an action has one grounding for each of its instances
that can be carried out. -/
theorem DescribedBy.perm_groundings (h : l.DescribedBy s) (ha : a ∈ domain.actions)
    {os : List Operation} (hos : os.Nodup)
    (hmem : ∀ o, o ∈ os ↔ o.action = a ∧ o.consumed ⊆ l.atoms) :
    ((a.groundings s).map Grounding.premises).Perm (os.map Operation.premises) := by
  have hleft := nodup_groundings (asksPositive_of_mem ha) h.nodup
  have hright := hos.map Operation.premises_injective
  refine (List.perm_ext_iff_of_nodup hleft hright).mpr fun qs => ?_
  constructor
  · intro hqs
    obtain ⟨g, hg, rfl⟩ := List.mem_map.mp hqs
    obtain ⟨hlength, -, σ, hσ⟩ := of_mem_groundings hg
    obtain ⟨o, haction, hpremises, -⟩ := exists_operation ha hlength hσ
    have ho : o ∈ os := (hmem o).mpr ⟨haction, h.consumed_subset ha hg hpremises⟩
    exact List.mem_map.mpr ⟨o, ho, hpremises.symm⟩
  · intro hqs
    obtain ⟨o, ho, rfl⟩ := List.mem_map.mp hqs
    obtain ⟨rfl, hsubset⟩ := (hmem o).mp ho
    obtain ⟨g, hg, hpremises⟩ := h.exists_grounding hsubset
    exact List.mem_map.mpr ⟨g, hg, hpremises⟩

end Layout

end ClassicalPlanning.CraneYard
