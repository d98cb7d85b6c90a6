/-
Where facts come from.

A node develops from the initial state when it is reached by moves of the domain, by whatever
facts: they need not have been found by the matcher, as long as the application goes through.
Since a move adds nothing but instances of its effects, and what it does not add has been there
before, every fact of the node is an initial fact or an instance that some move on its path has
added (`explained_of_develops`).  What is known of initial facts and of instances alike is then
known of every fact: it is ground and well typed, and the types of its variables are known ones.

The main result is `provenance_of_develops`.  It holds in particular of the nodes of the search
tree, which develop by moves that the matcher has found (`develops_of_hasNode`).
-/
import ClassicalPlanning.Proofs.Search.Coherence

namespace ClassicalPlanning

/-- The node comes about from the initial state by moves of the domain, whoever chose their
facts. -/
inductive Problem.Develops (p : Problem) : Node → Prop
  /-- The initial state. -/
  | root : p.Develops (Node.root p)
  /-- A node that a search has taken up. -/
  | takeUp {n : Node} (hn : p.Develops n) : p.Develops n.takeUp
  /-- A node that a move leads to. -/
  | apply {n child : Node} {m : Move} (hn : p.Develops n) (hm : m.action ∈ p.domain.actions)
      (hchild : n.apply m = .ok child) : p.Develops child

/-- The initial facts are ground and well typed, and the constants of the effects are well
typed. -/
structure Problem.Grounded (p : Problem) : Prop where
  ground : ∀ l ∈ p.state, l.isGround
  wellTyped : ∀ l ∈ p.state, l.WellTyped
  effects : ∀ a ∈ p.domain.actions, ∀ e ∈ a.effects, e.WellTyped

/-! ## Nodes that develop -/

section Nodes

variable {p : Problem} {n child : Node} {m : Move}

lemma path_of_apply (h : n.apply m = .ok child) : child.path = m :: n.path := by
  obtain ⟨effects, state, -, -, rfl⟩ := apply_eq_ok_iff.mp h
  rfl

lemma mem_actions_of_develops (hn : p.Develops n) :
    ∀ m ∈ n.path, m.action ∈ p.domain.actions := by
  induction hn with
  | root => simp [Node.root]
  | takeUp _ ih => exact ih
  | apply _ hm hchild ih =>
    rw [path_of_apply hchild]
    exact List.forall_mem_cons.mpr ⟨hm, ih⟩

/-- Every fact is an initial one, or some move on the path has added it. -/
lemma explained_of_develops (hn : p.Develops n) :
    ∀ l ∈ n.state, l ∈ p.state ∨ ∃ m ∈ n.path, m.Adds l := by
  induction hn with
  | root => exact fun l hl => Or.inl hl
  | takeUp _ ih => exact ih
  | apply _ _ hchild ih =>
    intro l hl
    rw [path_of_apply hchild]
    rcases mem_state_or_adds_of_apply hchild l hl with hl | hadds
    · refine (ih l hl).imp_right ?_
      rintro ⟨m', hm', hadds⟩
      exact ⟨m', List.mem_cons_of_mem _ hm', hadds⟩
    · exact Or.inr ⟨_, List.mem_cons_self, hadds⟩

/-- The nodes of the search tree develop from the initial state. -/
theorem develops_of_hasNode : ∀ n, p.HasNode n → p.Develops n := by
  refine forall_hasNode Problem.Develops.root.takeUp fun n _ hn child hchild => ?_
  obtain ⟨m, hm, next, hnext, rfl⟩ := mem_children.mp hchild
  exact (hn.apply (mem_moves_survey.mp hm).1 hnext).takeUp

/-- Whichever facts the moves to a node took, the facts of the node are ground and well typed,
and each of them is an initial fact or an instance of an effect of a move on the path, under the
match of the facts of that move.  Every type of a variable occurs in an initial fact or in an
effect. -/
theorem provenance_of_develops (hp : p.Grounded) (hn : p.Develops n) :
    (∀ l ∈ n.state, l.isGround ∧ l.WellTyped ∧
      (l ∈ p.state ∨ ∃ m ∈ n.path, m.action ∈ p.domain.actions ∧ m.Adds l)) ∧
    ∀ l ∈ n.state, ∀ v ∈ l.arguments,
      (∃ l' ∈ p.state, ∃ w ∈ l'.arguments, w.type = v.type) ∨
        ∃ a ∈ p.domain.actions, ∃ e ∈ a.effects, ∃ w ∈ e.arguments, w.type = v.type := by
  constructor
  · intro l hl
    rcases explained_of_develops hn l hl with hinitial | ⟨m, hm, hadds⟩
    · exact ⟨hp.ground l hinitial, hp.wellTyped l hinitial, Or.inl hinitial⟩
    · have ha := mem_actions_of_develops hn m hm
      exact ⟨hadds.isGround, hadds.wellTyped (hp.effects _ ha), Or.inr ⟨m, hm, ha, hadds⟩⟩
  · intro l hl v hv
    rcases explained_of_develops hn l hl with hinitial | ⟨m, hm, hadds⟩
    · exact Or.inl ⟨l, hinitial, v, hv, rfl⟩
    · exact Or.inr ⟨m.action, mem_actions_of_develops hn m hm, hadds.exists_type_eq hv⟩

end Nodes

/-! ## A walk -/

lemma Walk.grounded (places : List String) (goal : String) :
    (Walk.problem places goal).Grounded where
  ground l hl := by
    rcases List.mem_append.mp hl with hl | hl
    · obtain ⟨a, -, rfl⟩ := List.mem_map.mp hl
      rfl
    · obtain ⟨⟨a, b⟩, -, rfl⟩ := List.mem_map.mp hl
      rfl
  wellTyped := (Walk.coherent places goal).wellTyped
  effects a ha := ((Walk.coherent places goal).actions a ha).wellTyped

/-- The walker takes the first link, by a fact that is written with another variable than that
of the initial state. -/
def Walk.first : Move where
  action := Walk.step
  grounding := ⟨[Walk.here ((Walk.free "?y").fill ⟨"a", "place"⟩),
    Walk.link (Walk.place "a") (Walk.place "b")]⟩

/-- After a step by facts that the matcher has not found all facts are ground and well typed, and
each of them is an initial fact or was added by the step. -/
theorem walk_provenance_of_develops : ∃ child,
    (Node.root (Walk.problem ["a", "b", "c"] "c")).apply Walk.first = .ok child ∧
    child.path = [Walk.first] ∧ ∀ l ∈ child.state, l.isGround ∧ l.WellTyped ∧
      (l ∈ Walk.start ["a", "b", "c"] ∨ ∃ m ∈ child.path, m.action = Walk.step ∧ m.Adds l) := by
  obtain ⟨child, hchild⟩ : ∃ child,
      (Node.root (Walk.problem ["a", "b", "c"] "c")).apply Walk.first = .ok child := ⟨_, rfl⟩
  obtain ⟨hfacts, -⟩ := provenance_of_develops (Walk.grounded ["a", "b", "c"] "c")
    (.apply .root (List.mem_singleton_self Walk.step) hchild)
  refine ⟨child, hchild, path_of_apply hchild, fun l hl => ?_⟩
  obtain ⟨hground, htyped, horigin⟩ := hfacts l hl
  refine ⟨hground, htyped, horigin.imp_right ?_⟩
  rintro ⟨m, hm, ha, hadds⟩
  exact ⟨m, hm, List.mem_singleton.mp ha, hadds⟩

end ClassicalPlanning
