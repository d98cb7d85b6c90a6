/-
Something can always be done in a crane yard.

In a yard with an arm, a stack and a container, either an arm is loaded, and then it can put
its load down, or all the containers are on stacks, and then an arm can pick one up.  The
actions are coherent and the asserted facts stay well typed, so no move is at fault either.
Hence the tree of a problem in such a yard has no end, whatever its goal.

The main result is `endless_of_encodedBy`.
-/
import ClassicalPlanning.Proofs.CraneYard.Refinement
import ClassicalPlanning.Proofs.Search.Coherence
import ClassicalPlanning.Proofs.Search.Endless

namespace ClassicalPlanning.CraneYard

/-! ## There is something to do -/

namespace Layout

variable {y : Yard} {l : Layout y}

lemma exists_mem_operations (l : Layout y) (harms : y.armNames ≠ []) (hstacks : y.stackNames ≠ [])
    (hcontainers : y.containerNames ≠ []) : ∃ o, o ∈ l.operations := by
  obtain ⟨x, hx⟩ := List.exists_mem_of_ne_nil _ hcontainers
  rcases List.mem_append.mp (l.once.symm.subset hx) with hpile | hload
  -- The container is on a stack, so an arm can pick up what is at the top, or has a load.
  · obtain ⟨q, hq, hxq⟩ := List.mem_flatMap.mp hpile
    obtain ⟨a, ha⟩ := List.exists_mem_of_ne_nil _ harms
    obtain ⟨top, below, htop⟩ := List.exists_cons_of_ne_nil (List.ne_nil_of_mem hxq)
    cases hload : l.load a with
    | none =>
      have ho := mem_pickUps.mpr ⟨a, ha, q, hq, top, below, hload, htop, rfl⟩
      exact ⟨_, List.mem_append_left _ ho⟩
    | some x' =>
      exact ⟨_, List.mem_append_right _ (mem_putDowns.mpr ⟨a, ha, q, hq, x', hload, rfl⟩)⟩
  -- An arm holds the container, and there is a stack to put it on.
  · obtain ⟨a, ha, hxa⟩ := List.mem_flatMap.mp hload
    obtain ⟨q, hq⟩ := List.exists_mem_of_ne_nil _ hstacks
    have hload : l.load a = some x := Option.mem_toList.mp hxa
    exact ⟨_, List.mem_append_right _ (mem_putDowns.mpr ⟨a, ha, q, hq, x, hload, rfl⟩)⟩

lemma DescribedBy.moves_ne_nil {n : Node} (h : l.DescribedBy n.state) (harms : y.armNames ≠ [])
    (hstacks : y.stackNames ≠ []) (hcontainers : y.containerNames ≠ []) :
    (n.survey domain.actions).moves ≠ [] := by
  obtain ⟨o, ho⟩ := l.exists_mem_operations harms hstacks hcontainers
  have hmem := h.perm_moves.symm.subset (List.mem_map_of_mem ho)
  obtain ⟨m, hm, -⟩ := List.mem_map.mp hmem
  exact List.ne_nil_of_mem hm

end Layout

/-! ## Nothing is at fault -/

lemma coherent_of_mem {a : Action} (ha : a ∈ domain.actions) : a.Coherent := by
  have hactions : a = pickUp ∨ a = putDown := by simpa [domain, Domain.ofDeclarations] using ha
  rcases hactions with rfl | rfl
  · constructor
    · decide
    · simp [pickUp, asserted, denied, Literal.WellTyped, Variable.WellTyped, Variable.free, c, k, p,
        other]
    · decide
  · constructor
    · decide
    · simp [putDown, asserted, denied, Literal.WellTyped, Variable.WellTyped, Variable.free, c, k,
        p, other]
    · decide

section Nodes

variable {problem : Problem}

/-- Asserted facts stay well typed, whatever the denied facts of the initial state are. -/
lemma wellTyped_positives (hdomain : problem.domain = domain)
    (h : ∀ f ∈ problem.state.positives, f.WellTyped) :
    ∀ n, problem.HasNode n → ∀ f ∈ n.state.positives, f.WellTyped := by
  refine forall_hasNode h fun n _ hn child hchild f hf => ?_
  obtain ⟨hmem, hpositive⟩ := List.mem_filter.mp hf
  have hactions : ∀ a ∈ problem.domain.actions, a.Coherent := fun a ha =>
    coherent_of_mem (hdomain ▸ ha)
  rcases mem_state_or_wellTyped_of_mem_children hactions hchild f hmem with hstays | hnew
  · exact hn f (List.mem_filter.mpr ⟨hstays, hpositive⟩)
  · exact hnew

lemma faultless_of_positives {n : Node} (h : ∀ f ∈ n.state.positives, f.WellTyped) :
    n.Faultless domain.actions :=
  faultless_of_wellTyped_matched (fun _ => coherent_of_mem) fun _ ha _ hg f hf =>
    h f (mem_positives_of_mem_groundings (asksPositive_of_mem ha) hg hf)

/-- The tree of a problem in a yard with an arm, a stack and a container has no end. -/
theorem endless_of_encodedBy {y : Yard} {l : Layout y} (harms : y.armNames ≠ [])
    (hstacks : y.stackNames ≠ []) (hcontainers : y.containerNames ≠ [])
    (hdomain : problem.domain = domain) (h : l.EncodedBy problem.state) : problem.Endless where
  faultless n hn :=
    hdomain ▸ faultless_of_positives (wellTyped_positives hdomain h.wellTyped n hn)
  moves_ne_nil n hn := by
    obtain ⟨l', -, hl'⟩ := exists_reaches hdomain h.describedBy n hn
    exact hdomain ▸ hl'.moves_ne_nil harms hstacks hcontainers

end Nodes

lemma endless_of_problem {goal : Goal} {p : Problem} (h : problem goal = .ok p) : p.Endless := by
  obtain ⟨p', hp', hdomain, hencoded⟩ := exists_problem goal
  obtain rfl : p' = p := Except.ok.inj (hp'.symm.trans h)
  exact endless_of_encodedBy (by decide) (by decide) (by decide) hdomain hencoded

end ClassicalPlanning.CraneYard
