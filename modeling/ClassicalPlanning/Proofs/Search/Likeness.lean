/-
Nodes of one content.

Two nodes whose states have the same content have the same prospects where the roles of facts
do not matter: what an action makes of facts at the one it makes of like facts at the other,
so each child of the one has a like child of the other (`exists_like_child`).  By induction
the trees of two problems with like initial states are mirrored in each other
(`mirroredIn_of_neutral`, `mirroredIn_of_neutral_right`).
-/
import ClassicalPlanning.Proofs.Matching.Arrangement
import ClassicalPlanning.Proofs.Matching.Neutrality
import ClassicalPlanning.Proofs.Search.Run

namespace ClassicalPlanning

/-- At the node the roles of facts do not matter: every action is neutral at the facts of its
groundings. -/
def Node.Neutral (actions : List Action) (n : Node) : Prop :=
  ∀ a ∈ actions, ∀ g ∈ a.groundings n.state, ∀ effects, a.Yields g.matched effects →
    a.NeutralAt g.matched effects

section Children

variable {actions : List Action} {n n' : Node} {a : Action} {ms rest effects : List Literal}

lemma neutral_of_nodup_heads (h : ∀ a ∈ actions, (a.preconditions.map Literal.head).Nodup)
    (n : Node) : n.Neutral actions :=
  fun a ha _ _ _ hyields => neutralAt_of_nodup_heads (h a ha) hyields

/-- A node that has the facts has a child in which they are replaced by the effects that they
yield, if their roles do not matter. -/
lemma exists_child_of_yields (hfaultless : n.Faultless actions) (ha : a ∈ actions)
    (hyields : a.Yields ms effects) (hcontent : SameContent (ms ++ rest) n.state)
    (hneutral : a.NeutralAt ms effects) :
    ∃ child ∈ n.children actions, SameContent (rest ++ effects) child.state := by
  obtain ⟨g, hg, hmatched⟩ := exists_grounding_of_yields hyields hcontent
  -- The move by this grounding gives the child.
  have hmove : (⟨a, g⟩ : Move) ∈ (n.survey actions).moves := mem_moves_survey.mpr ⟨ha, hg⟩
  obtain ⟨child, hchild⟩ := hfaultless _ hmove
  refine ⟨child.takeUp, mem_children.mpr ⟨_, hmove, child, hchild, rfl⟩, ?_⟩
  obtain ⟨effects', state, heffects, hstate, rfl⟩ := apply_eq_ok_iff.mp hchild
  obtain ⟨rest', hrest, rfl⟩ := State.successor_eq_ok_iff.mp hstate
  have hleft : SameContent rest rest' :=
    (hcontent.trans (State.removeAll_eq_ok hrest).1).cancel_left hmatched
  have hyields' : a.Yields g.matched effects' :=
    Action.yields_of_effectsFor (of_mem_groundings hg).1 heffects
  exact hleft.append (hneutral _ _ hmatched hyields')

/-- Each child of a node has a like child of a like node, if the roles of facts do not
matter. -/
lemma exists_like_child (hneutral : n.Neutral actions) (hfaultless : n'.Faultless actions)
    (hcontent : SameContent n.state n'.state) {child : Node} (hchild : child ∈ n.children actions) :
    ∃ child' ∈ n'.children actions, SameContent child.state child'.state := by
  obtain ⟨m, hm, next, hnext, rfl⟩ := mem_children.mp hchild
  obtain ⟨ha, hg⟩ := mem_moves_survey.mp hm
  obtain ⟨effects, state, heffects, hstate, rfl⟩ := apply_eq_ok_iff.mp hnext
  obtain ⟨rest, hrest, rfl⟩ := State.successor_eq_ok_iff.mp hstate
  have hyields : m.action.Yields m.grounding.matched effects :=
    Action.yields_of_effectsFor (of_mem_groundings hg).1 heffects
  have hfacts : SameContent (m.grounding.matched ++ rest) n'.state :=
    (State.removeAll_eq_ok hrest).1.symm.trans hcontent
  exact exists_child_of_yields hfaultless ha hyields hfacts (hneutral _ ha _ hg _ hyields)

/-- If the roles of facts do not matter at a node, they do not matter at a like node. -/
lemma neutral_of_sameContent (hneutral : n.Neutral actions) (hfaultless : n.Faultless actions)
    (hcontent : SameContent n.state n'.state) : n'.Neutral actions := by
  intro a ha g' hg' effects' hyields'
  obtain ⟨hlength, ⟨rest, hperm⟩, -⟩ := of_mem_groundings hg'
  -- The node has a grounding by like facts, and at these the action is neutral.
  obtain ⟨g, hg, hmatched⟩ := exists_grounding_of_yields hyields'
    ((SameContent.of_perm hperm).trans hcontent.symm)
  obtain ⟨child, hchild⟩ := hfaultless ⟨a, g⟩ (mem_moves_survey.mpr ⟨ha, hg⟩)
  obtain ⟨effects, state, heffects, -, -⟩ := apply_eq_ok_iff.mp hchild
  have hyields : a.Yields g.matched effects :=
    Action.yields_of_effectsFor (of_mem_groundings hg).1 heffects
  have hneutralAt := hneutral a ha g hg effects hyields
  intro ms'' effects'' hcontent'' hyields''
  have hfirst : SameContent effects effects' := hneutralAt _ _ hmatched.symm hyields'
  have hsecond : SameContent effects effects'' :=
    hneutralAt _ _ (hmatched.symm.trans hcontent'') hyields''
  exact hfirst.symm.trans hsecond

end Children

/-! ## Like trees -/

/-- Every node of the first tree has a like node at its level in the second. -/
def Problem.MirroredIn (p q : Problem) : Prop :=
  ∀ n, p.HasNode n → ∃ n', q.HasNode n' ∧ n'.level = n.level ∧ SameContent n.state n'.state

section Trees

variable {p q : Problem}

/-- The tree of a problem in which the roles of facts do not matter is mirrored in that of a
problem with a like initial state, if no move of the latter is at fault. -/
lemma mirroredIn_of_neutral (hdomain : q.domain = p.domain) (hcontent : SameContent p.state q.state)
    (hneutral : ∀ n, p.HasNode n → n.Neutral p.domain.actions)
    (hfaultless : ∀ n, q.HasNode n → n.Faultless q.domain.actions) : p.MirroredIn q := by
  refine forall_hasNode ⟨q.root, hasNode_root q, rfl, hcontent⟩ ?_
  rintro n hn ⟨n', hn', hlevel, hlike⟩ child hchild
  obtain ⟨child', hchild', hlike'⟩ :=
    exists_like_child (hneutral n hn) (hdomain ▸ hfaultless n' hn') hlike hchild
  refine ⟨child', hasNode_of_mem_children hn' (hdomain ▸ hchild'), ?_, hlike'⟩
  rw [level_of_mem_children hchild, level_of_mem_children hchild', hlevel]

lemma mirroredIn_of_neutral_right (hdomain : q.domain = p.domain)
    (hcontent : SameContent p.state q.state)
    (hneutral : ∀ n, q.HasNode n → n.Neutral q.domain.actions)
    (hfaultless : ∀ n, q.HasNode n → n.Faultless q.domain.actions) : p.MirroredIn q := by
  refine forall_hasNode ⟨q.root, hasNode_root q, rfl, hcontent⟩ ?_
  rintro n hn ⟨n', hn', hlevel, hlike⟩ child hchild
  -- The roles of facts do not matter at this node either, since it is like one at which they
  -- do not.
  have hneutral' : n.Neutral q.domain.actions :=
    neutral_of_sameContent (hneutral n' hn') (hfaultless n' hn') hlike.symm
  obtain ⟨child', hchild', hlike'⟩ :=
    exists_like_child hneutral' (hfaultless n' hn') hlike (hdomain ▸ hchild)
  refine ⟨child', hasNode_of_mem_children hn' hchild', ?_, hlike'⟩
  rw [level_of_mem_children hchild, level_of_mem_children hchild', hlevel]

end Trees

end ClassicalPlanning
