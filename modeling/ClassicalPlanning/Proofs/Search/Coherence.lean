/-
Searches that cannot fail.

A problem is coherent when its initial facts and the constants of its effects are well
typed, when variables of one name have one type throughout the preconditions of an action,
and when the free variables of its effects are among those of its preconditions.  Then the
facts of every node are well typed: those that stay are facts of the parent, and those that
are added are effects, whose variables are bound to objects of their types.  From facts that
are well typed the matcher binds every name to an object of the type of its variables, so no
effect is ever at fault.

The main result is `search_faultless`: whatever the limits, a search of a coherent problem
can make every move of every node that it comes upon, and it never ends with a fault.
-/
import ClassicalPlanning.Proofs.Search.Addition
import ClassicalPlanning.Proofs.Search.Faults

namespace ClassicalPlanning

/-- The variables of an action fit together. -/
structure Action.Coherent (a : Action) : Prop where
  /-- Free variables of one name have one type throughout the preconditions. -/
  type_eq : ∀ p ∈ a.preconditions, ∀ q ∈ a.preconditions, ∀ v ∈ p.arguments, ∀ w ∈ q.arguments,
    v.value = none → w.value = none → v.name = w.name → v.type = w.type
  /-- The constants of the effects are well typed. -/
  wellTyped : ∀ e ∈ a.effects, e.WellTyped
  /-- A free variable of an effect occurs in a precondition, free and with its type. -/
  bound : ∀ e ∈ a.effects, ∀ v ∈ e.arguments, v.value = none →
    ∃ p ∈ a.preconditions, ∃ w ∈ p.arguments, w.value = none ∧ w.name = v.name ∧ w.type = v.type

/-- The initial facts of a problem are well typed, and its actions are coherent. -/
structure Problem.Coherent (p : Problem) : Prop where
  wellTyped : ∀ l ∈ p.state, l.WellTyped
  actions : ∀ a ∈ p.domain.actions, a.Coherent

/-! ## Nodes with well-typed facts -/

section Nodes

variable {actions : List Action} {n : Node}

/-- A fact of a child stays from the parent, or it is an effect. -/
lemma mem_state_or_wellTyped_of_mem_children (hactions : ∀ a ∈ actions, a.Coherent) {child : Node}
    (hchild : child ∈ n.children actions) : ∀ l ∈ child.state, l ∈ n.state ∨ l.WellTyped := by
  obtain ⟨m, hm, next, hnext, rfl⟩ := mem_children.mp hchild
  have ha := hactions m.action (mem_moves_survey.mp hm).1
  intro l hl
  exact (mem_state_or_adds_of_apply hnext l hl).imp_right fun hadds => hadds.wellTyped ha.wellTyped

lemma wellTyped_of_mem_children (hactions : ∀ a ∈ actions, a.Coherent)
    (hn : ∀ l ∈ n.state, l.WellTyped) {child : Node} (hchild : child ∈ n.children actions) :
    ∀ l ∈ child.state, l.WellTyped := fun l hl =>
  (mem_state_or_wellTyped_of_mem_children hactions hchild l hl).elim (hn l) id

/-- No effect is at fault if the facts that are taken are well typed. -/
lemma not_effectFault {m : Move} (ha : m.action.Coherent)
    (hg : m.grounding ∈ m.action.groundings n.state)
    (hmatched : ∀ l ∈ m.grounding.matched, l.WellTyped) (fault : Fault) :
    ¬ m.EffectFault fault := by
  obtain ⟨hlength, -, -⟩ := of_mem_groundings hg
  intro hfault
  cases hfault with
  | @unbound σ e v hσ he hv hfree hget =>
    obtain ⟨p, hp, w, hw, hwfree, hname, -⟩ := ha.bound e he v hv hfree
    obtain ⟨o, ho⟩ := (exists_get?_iff hlength hσ v.name).mpr ⟨p, hp, w, hw, hwfree, hname⟩
    simp [hget] at ho
  | @mismatched σ e v o hσ he hv hfree hget htype =>
    -- The value comes from a variable of the same name, and such variables have one type.
    obtain ⟨p, hp, w, hw, hwfree, hname, hwtype⟩ := ha.bound e he v hv hfree
    obtain ⟨q, hq, u, hu, hufree, huname, hotype⟩ :=
      exists_of_get?_of_wellTyped hlength hσ hmatched hget
    have huw : u.type = w.type :=
      ha.type_eq q hq p hp u hu w hw hufree hwfree (huname.trans hname.symm)
    exact htype (hotype.trans (huw.trans hwtype))

/-- No move is at fault if the facts that moves take are well typed. -/
lemma faultless_of_wellTyped_matched (hactions : ∀ a ∈ actions, a.Coherent)
    (hmatched : ∀ a ∈ actions, ∀ g ∈ a.groundings n.state, ∀ l ∈ g.matched, l.WellTyped) :
    n.Faultless actions := by
  intro m hm
  obtain ⟨ha, hg⟩ := mem_moves_survey.mp hm
  cases happly : n.apply m with
  | ok child => exact ⟨child, rfl⟩
  | error fault =>
    exact absurd (effectFault_of_apply hg happly)
      (not_effectFault (hactions _ ha) hg (hmatched _ ha _ hg) fault)

lemma faultless_of_wellTyped (hactions : ∀ a ∈ actions, a.Coherent)
    (hn : ∀ l ∈ n.state, l.WellTyped) : n.Faultless actions :=
  faultless_of_wellTyped_matched hactions fun _ _ _ hg l hl => hn l (mem_of_mem_groundings hg hl)

end Nodes

/-! ## The search tree of a coherent problem -/

section Tree

variable {p : Problem}

lemma wellTyped_of_hasNode (h : p.Coherent) : ∀ n, p.HasNode n → ∀ l ∈ n.state, l.WellTyped :=
  forall_hasNode h.wellTyped fun _ _ hn _ hchild => wellTyped_of_mem_children h.actions hn hchild

lemma faultless_of_hasNode (h : p.Coherent) (n : Node) (hn : p.HasNode n) :
    n.Faultless p.domain.actions :=
  faultless_of_wellTyped h.actions (wellTyped_of_hasNode h n hn)

/-- A search of a coherent problem can apply every action to every node that waits, by every
grounding, and it does not end with a fault. -/
theorem search_faultless (h : p.Coherent) (limits : SearchLimits) :
    (∀ s, Search.Reached p limits s → ∀ n ∈ s.frontier.toList, ∀ a ∈ p.domain.actions,
      ∀ g ∈ a.groundings n.state, ∃ child, n.apply ⟨a, g⟩ = .ok child) ∧
    ∀ fuel fault, p.search? limits fuel ≠ some (.error fault) := by
  constructor
  · intro s hs n hn a ha g hg
    have hfaultless : n.Faultless p.domain.actions := faultless_of_hasNode h n (hs.hasNode hn)
    exact hfaultless ⟨a, g⟩ (mem_moves_survey.mpr ⟨ha, hg⟩)
  · exact search?_ne_error_of_faultless (faultless_of_hasNode h) limits

end Tree

/-! ## Walks -/

lemma Walk.wellTyped_place (name : String) : (Walk.place name).WellTyped := by
  simp [Walk.place, Variable.WellTyped, Variable.fill, Variable.free, Walk.free]

lemma Walk.coherent_step : Walk.step.Coherent where
  type_eq := by
    simp [Walk.step, Walk.here, Walk.link, Walk.free, Variable.free]
  wellTyped := by
    simp [Walk.step, Walk.here, Walk.link, Walk.free, Variable.free, Literal.negate,
      Literal.WellTyped, Variable.WellTyped]
  bound := by
    simp [Walk.step, Walk.here, Walk.link, Walk.free, Variable.free, Literal.negate]

lemma Walk.coherent (places : List String) (goal : String) :
    (Walk.problem places goal).Coherent where
  wellTyped l hl := by
    rcases List.mem_append.mp hl with hl | hl
    · obtain ⟨a, -, rfl⟩ := List.mem_map.mp hl
      simpa [Walk.here, Literal.WellTyped] using Walk.wellTyped_place a
    · obtain ⟨⟨a, b⟩, -, rfl⟩ := List.mem_map.mp hl
      simpa [Walk.link, Literal.WellTyped] using
        And.intro (Walk.wellTyped_place a) (Walk.wellTyped_place b)
  actions a ha := List.mem_singleton.mp ha ▸ Walk.coherent_step

lemma Walk.coherent_stay : Walk.stay.Coherent where
  type_eq := by simp [Walk.stay]
  wellTyped := by simp [Walk.stay]
  bound := by simp [Walk.stay]

lemma Walk.coherent_stroll (places : List String) (goal : String) :
    (Walk.stroll places goal).Coherent where
  wellTyped := (Walk.coherent places goal).wellTyped
  actions := by simp [Walk.stroll, Walk.coherent_step, Walk.coherent_stay]

/-- On a line of three places the walker can take the first link, and looking for a place that
is not there does not end with a fault. -/
theorem walk_search_faultless : (Walk.problem ["a", "b", "c"] "z").Coherent ∧
    (∀ g ∈ Walk.step.groundings (Walk.start ["a", "b", "c"]),
      ∃ child, (Walk.problem ["a", "b", "c"] "z").root.apply ⟨Walk.step, g⟩ = .ok child) ∧
    ∀ fuel fault, (Walk.problem ["a", "b", "c"] "z").search? {} fuel ≠ some (.error fault) := by
  have hcoherent := Walk.coherent ["a", "b", "c"] "z"
  obtain ⟨happly, hfault⟩ := search_faultless hcoherent {}
  refine ⟨hcoherent, ?_, hfault⟩
  exact happly _ .start _ (List.mem_singleton_self _) _ (List.mem_singleton_self _)

end ClassicalPlanning
