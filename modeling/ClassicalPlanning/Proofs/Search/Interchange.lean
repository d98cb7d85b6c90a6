/-
Actions that can be put in each other's place.

Two actions are interchangeable if they have one name, the same groundings in every state, and
effects that are equal but for the names that bound variables keep, or faults of one kind.  A
search does not see more of an action than this, so the searches of two problems go in step when
their actions are interchangeable one by one, in the order of the domains, and their goals say
the same (`Search.inStep_of_interchangeable`).

The nodes that correspond (`Node.Corresponds`) have equal facts and equal groundings on their
paths, again but for the names of bound variables.  That the moves from them correspond comes
from the groundings; a move between them can only be at fault through its effects, since the facts
of a grounding can always be taken out of the state.
-/
import ClassicalPlanning.Proofs.Matching.Anonymity
import ClassicalPlanning.Proofs.Search.Faults
import ClassicalPlanning.Proofs.Search.InStep

namespace ClassicalPlanning

/-- A search cannot tell the actions apart, but for faults that are related. -/
structure Action.Interchangeable (φ : Fault → Fault → Prop) (a b : Action) : Prop where
  name : a.name = b.name
  preconditions : a.preconditions.length = b.preconditions.length
  groundings (s : State) : a.groundings s = b.groundings s
  effects (g : Grounding) :
    EndAlike φ (fun es es' => es.map Literal.anonymous = es'.map Literal.anonymous)
      (a.effectsFor g) (b.effectsFor g)

/-- The nodes came about by moves that correspond and have the same facts, but for the names of
bound variables. -/
structure Node.Corresponds (R : Action → Action → Prop) (n n' : Node) : Prop where
  state : n.state.map Literal.anonymous = n'.state.map Literal.anonymous
  path : List.Forall₂ (fun m m' => R m.action m'.action ∧
    m.grounding.anonymous = m'.grounding.anonymous) n.path n'.path
  explored : n.explored = n'.explored

variable {φ : Fault → Fault → Prop} {R : Action → Action → Prop} {a b : Action} {n n' : Node}

lemma Action.Interchangeable.refl (hφ : ∀ fault, φ fault fault) (a : Action) :
    a.Interchangeable φ a := by
  refine ⟨rfl, rfl, fun _ => rfl, fun g => ?_⟩
  apply EndAlike.refl hφ
  exact fun _ => rfl

namespace Node.Corresponds

lemma level_eq (h : n.Corresponds R n') : n.level = n'.level := by
  rw [n.level_eq, n'.level_eq, h.path.length_eq]

lemma length_state_eq (h : n.Corresponds R n') : n.state.length = n'.state.length := by
  simpa using congrArg List.length h.state

/-! ## Moves -/

lemma groundings_eq (h : n.Corresponds R n') (hab : a.Interchangeable φ b) :
    (a.groundings n.state).map Grounding.anonymous =
      (b.groundings n'.state).map Grounding.anonymous := by
  rw [← a.groundings_anonymous, ← b.groundings_anonymous, h.state, hab.groundings]

lemma events_survey {actions actions' : List Action} (hR : ∀ a b, R a b → a.Interchangeable φ b)
    (h : n.Corresponds R n') (hactions : List.Forall₂ R actions actions') (facts : ℕ) :
    (n.survey actions).events facts = (n'.survey actions').events facts := by
  rw [Node.survey, Node.survey, Survey.events, Survey.events, List.map_map, List.map_map,
    ← List.forall₂_eq_eq_eq, List.forall₂_map_left_iff, List.forall₂_map_right_iff]
  refine hactions.imp fun a b hab => ?_
  have hlength := congrArg List.length (h.groundings_eq (hR a b hab))
  rw [List.length_map, List.length_map] at hlength
  simp only [Function.comp_apply, (hR a b hab).name, (hR a b hab).preconditions, hlength]

lemma moves_survey {actions actions' : List Action} (hR : ∀ a b, R a b → a.Interchangeable φ b)
    (h : n.Corresponds R n') (hactions : List.Forall₂ R actions actions') :
    List.Forall₂ (fun m m' => R m.action m'.action ∧
        m.grounding ∈ m.action.groundings n.state ∧ m'.grounding ∈ m'.action.groundings n'.state ∧
        m.grounding.anonymous = m'.grounding.anonymous)
      (n.survey actions).moves (n'.survey actions').moves := by
  rw [Node.survey, Node.survey, Survey.moves, Survey.moves, List.flatMap_map, List.flatMap_map]
  refine List.rel_flatMap hactions fun a b hab => ?_
  rw [List.forall₂_map_left_iff, List.forall₂_map_right_iff]
  exact forall₂_of_map_eq_map (fun g hg g' hg' heq => ⟨hab, hg, hg', heq⟩)
    (h.groundings_eq (hR a b hab))

/-- Moves that correspond lead to nodes that do, or their effects are at fault. -/
lemma endAlike_apply {m m' : Move} (h : n.Corresponds R n') (hm : R m.action m'.action)
    (hinterchangeable : m.action.Interchangeable φ m'.action)
    (hg : m.grounding ∈ m.action.groundings n.state)
    (hg' : m'.grounding ∈ m'.action.groundings n'.state)
    (hmatched : m.grounding.anonymous = m'.grounding.anonymous) :
    EndAlike φ (Node.Corresponds R) (n.apply m) (n'.apply m') := by
  have heffects := hinterchangeable.effects m.grounding
  rw [← m'.action.effectsFor_anonymous, hmatched, m'.action.effectsFor_anonymous] at heffects
  rw [Node.apply, Node.apply]
  refine heffects.bind fun es es' hes => ?_
  -- The facts of a grounding can always be taken out, on both sides the same ones.
  obtain ⟨t, ht⟩ := exists_successor hg m.action.name es
  obtain ⟨t', ht'⟩ := exists_successor hg' m'.action.name es'
  obtain ⟨rest, hrest, rfl⟩ := State.successor_eq_ok_iff.mp ht
  obtain ⟨rest', hrest', rfl⟩ := State.successor_eq_ok_iff.mp ht'
  have hsame : rest.map Literal.anonymous = rest'.map Literal.anonymous := by
    have hfacts : m.grounding.matched.map Literal.anonymous
        = m'.grounding.matched.map Literal.anonymous := congrArg Grounding.matched hmatched
    have heq := State.removeAll_anonymous hrest
    rw [h.state, hfacts, State.removeAll_anonymous hrest'] at heq
    exact (Except.ok.inj heq).symm
  rw [ht, ht']
  refine .ok ⟨?_, .cons ⟨hm, hmatched⟩ h.path, rfl⟩
  rw [List.map_append, List.map_append, hsame, hes]

/-! ## Plans -/

/-- Nodes that correspond have plans that say the same. -/
lemma plan_equiv (hR : ∀ a b, R a b → a.name = b.name) (h : n.Corresponds R n') :
    n.plan ≈ n'.plan := by
  rw [Plan.equiv_iff_forall₂, Node.plan, Node.plan, List.forall₂_map_left_iff,
    List.forall₂_map_right_iff, List.forall₂_reverse_iff]
  refine h.path.imp fun m m' hm => ⟨hR _ _ hm.1, forall₂_equiv_of_anonymous ?_⟩
  exact congrArg Grounding.matched hm.2

end Node.Corresponds

/-! ## Searches -/

/-- Two problems whose actions are interchangeable one by one and whose goals say the same have
searches that go in step. -/
theorem Search.inStep_of_interchangeable {p q : Problem}
    (hR : ∀ a b, R a b → a.Interchangeable φ b)
    (hactions : List.Forall₂ R p.domain.actions q.domain.actions)
    (hgoal : p.goal.map Literal.proposition = q.goal.map Literal.proposition) :
    Search.InStep p q φ (Node.Corresponds R) where
  level h := h.level_eq
  facts h := h.length_state_eq
  satisfies h := State.satisfies_iff_of_anonymous h.state hgoal
  events h := h.events_survey hR hactions
  moves h := (h.moves_survey hR hactions).imp fun _ _ ⟨hm, hg, hg', hmatched⟩ =>
    ⟨(hR _ _ hm).name, h.endAlike_apply hm (hR _ _ hm) hg hg' hmatched⟩
  takeUp h := ⟨h.state, h.path, rfl⟩

end ClassicalPlanning
