/-
States follow layouts.

Whatever a planner does in a crane yard, it does in the layout too.  If the initial state
describes a layout, then every node of the search tree describes the layout that comes about
by the operations which its moves carry out, and the moves that can be made there are the
operations that can be carried out, one for one.  So no container is ever in two places or
below itself, although the actions say nothing of the sort, and the denied facts that pile up
are of no consequence.

The main result is `hasNode_describes_layout`.
-/
import ClassicalPlanning.Proofs.CraneYard.Groundings
import ClassicalPlanning.Proofs.Search.Tree

namespace ClassicalPlanning.CraneYard

/-- What is done in a move: an action, with what is said by the facts that it takes. -/
def moved (m : Move) : Action × List Proposition :=
  (m.action, m.grounding.premises)

/-- What is done in an operation. -/
def Operation.moved (o : Operation) : Action × List Proposition :=
  (o.action, o.premises)

namespace Layout

variable {y : Yard}

/-- What can be done at a layout: a pick-up for each free arm and each stack that is not empty,
and a put-down for each loaded arm and each stack. -/
def operations (l : Layout y) : List Operation :=
  l.pickUps ++ l.putDowns

/-- The second layout comes about from the first by what is done in the moves, which stand in
the order of a path, newest first. -/
inductive Reaches (l : Layout y) : List Move → Layout y → Prop
  | start : l.Reaches [] l
  | step {ms : List Move} {m : Move} {o : Operation} {l' l'' : Layout y} (h : l.Reaches ms l')
      (hm : CraneYard.moved m = o.moved) (hstep : l'.Step l'' o) : l.Reaches (m :: ms) l''

variable {l : Layout y} {n next : Node} {m : Move}

/-- A move at a node that describes a layout carries out an operation, and leads to a node that
describes the layout after it. -/
theorem DescribedBy.exists_step_of_apply (h : l.DescribedBy n.state)
    (ha : m.action ∈ domain.actions) (hg : m.grounding ∈ m.action.groundings n.state)
    (happly : n.apply m = .ok next) :
    ∃ o l', CraneYard.moved m = o.moved ∧ l.Step l' o ∧ l'.DescribedBy next.state := by
  obtain ⟨effects, state, heffects, hstate, rfl⟩ := apply_eq_ok_iff.mp happly
  obtain ⟨rest, hrest, rfl⟩ := State.successor_eq_ok_iff.mp hstate
  obtain ⟨hlength, -, σ, hσ⟩ := of_mem_groundings hg
  rw [Action.effectsFor, hσ] at heffects
  obtain ⟨o, haction, hpremises, hadded⟩ := exists_operation ha hlength hσ
  obtain ⟨l', hstep⟩ := exists_step (h.consumed_subset ha hg hpremises)
  obtain ⟨others, hbefore, hafter⟩ := hstep.exists_others
  refine ⟨o, l', Prod.ext haction.symm hpremises, hstep, ?_⟩
  -- The facts that are taken are those that the operation uses up, so the others stay.
  have hmatched : SameContent m.grounding.matched (o.consumed.map Atom.literal) := by
    refine List.Perm.of_eq (hpremises.trans ?_)
    rw [List.map_map]
    rfl
  have htaken : State.positives m.grounding.matched = m.grounding.matched :=
    positives_eq_self (isNegative_eq_false_of_mem_groundings (asksPositive_of_mem ha) hg)
  have hremoved := (State.removeAll_eq_ok hrest).1.positives
  rw [positives_append, htaken] at hremoved
  have hatoms : SameContent n.state.positives
      (o.consumed.map Atom.literal ++ others.map Atom.literal) := by
    rw [← List.map_append]
    exact h.trans (SameContent.of_perm (hbefore.map _))
  have hstays : SameContent rest.positives (others.map Atom.literal) :=
    (hremoved.symm.trans hatoms).cancel_left hmatched
  have hnew : SameContent (State.positives (rest ++ effects))
      (others.map Atom.literal ++ o.added.map Atom.literal) := by
    rw [positives_append]
    exact hstays.append (hadded effects heffects)
  refine hnew.trans (SameContent.of_perm ?_)
  rw [← List.map_append]
  exact ((List.perm_append_comm).trans hafter.symm).map _

lemma perm_moved {a : Action} {gs : List Grounding} {os : List Operation}
    (hos : ∀ o ∈ os, o.action = a)
    (h : (gs.map Grounding.premises).Perm (os.map Operation.premises)) :
    ((gs.map (Move.mk a)).map CraneYard.moved).Perm (os.map Operation.moved) := by
  have hmoves : (gs.map (Move.mk a)).map CraneYard.moved =
      (gs.map Grounding.premises).map (Prod.mk a) := by
    rw [List.map_map, List.map_map]
    rfl
  have hoperations : os.map Operation.moved = (os.map Operation.premises).map (Prod.mk a) := by
    rw [List.map_map]
    exact List.map_congr_left fun o ho => Prod.ext (hos o ho) rfl
  rw [hmoves, hoperations]
  exact h.map _

/-- The moves at a node that describes a layout are the operations at the layout. -/
theorem DescribedBy.perm_moves (h : l.DescribedBy n.state) :
    ((n.survey domain.actions).moves.map CraneYard.moved).Perm
      (l.operations.map Operation.moved) := by
  have hpickUps := h.perm_groundings List.mem_cons_self l.nodup_pickUps fun _ => mem_pickUps_iff
  have hputDowns := h.perm_groundings (List.mem_cons_of_mem _ List.mem_cons_self)
    l.nodup_putDowns fun _ => mem_putDowns_iff
  have hmoves : (n.survey domain.actions).moves =
      (pickUp.groundings n.state).map (Move.mk pickUp) ++
        (putDown.groundings n.state).map (Move.mk putDown) := by
    simp [Survey.moves, Node.survey, domain, Domain.ofDeclarations]
  rw [hmoves, operations, List.map_append, List.map_append]
  exact (perm_moved (fun o ho => (mem_pickUps_iff.mp ho).1) hpickUps).append
    (perm_moved (fun o ho => (mem_putDowns_iff.mp ho).1) hputDowns)

end Layout

/-! ## Runs -/

section Runs

variable {y : Yard} {l : Layout y} {p : Problem}

/-- Every node of a problem in a crane yard describes the layout that its moves lead to. -/
lemma exists_reaches (hdomain : p.domain = domain) (h : l.DescribedBy p.state) :
    ∀ n, p.HasNode n → ∃ l', l.Reaches n.path l' ∧ l'.DescribedBy n.state := by
  refine forall_hasNode ⟨l, .start, h⟩ ?_
  rintro n - ⟨l', hreaches, hn⟩ child hchild
  obtain ⟨m, hm, next, hnext, rfl⟩ := mem_children.mp hchild
  obtain ⟨ha, hg⟩ := mem_moves_survey.mp hm
  obtain ⟨o, l'', hmoved, hstep, hnext'⟩ := hn.exists_step_of_apply (hdomain ▸ ha) hg hnext
  obtain ⟨effects, state, -, -, rfl⟩ := apply_eq_ok_iff.mp hnext
  exact ⟨l'', .step hreaches hmoved hstep, hnext'⟩

end Runs

/-! ## The yard at the start -/

/-- The yard with two arms, four stacks and six containers. -/
def startYard : Yard where
  armNames := ["k1", "k2"]
  stackNames := ["p1", "q1", "p2", "q2"]
  containerNames := ["ca", "cb", "cc", "cd", "ce", "cf"]
  pallet := "pallet"
  nodup_armNames := by decide
  nodup_stackNames := by decide
  nodup_containerNames := by decide

/-- Two stacks hold three containers each, the others none, and both arms are free. -/
def startLayout : Layout startYard where
  pile q := if q = "p1" then ["cc", "cb", "ca"] else if q = "q1" then ["cf", "ce", "cd"] else []
  load _ := none
  once := by decide

/-- The initial facts of the yard are the literals of its layout at the start. -/
lemma exists_start : ∃ s, start = .ok s ∧ startLayout.EncodedBy s := by
  have h : (start.toOption.any fun s => (s.positives.map Literal.anonymous).isPerm
      ((startLayout.atoms.map Atom.literal).map Literal.anonymous)) = true := by
    decide +kernel
  obtain ⟨s, hs, hperm⟩ := exists_of_any_toOption h
  exact ⟨s, hs, List.isPerm_iff.mp hperm⟩

/-- Each goal has a problem, in which the yard is at its start. -/
lemma exists_problem (goal : Goal) :
    ∃ p, problem goal = .ok p ∧ p.domain = domain ∧ startLayout.EncodedBy p.state := by
  have h : ((problem goal).toOption.any fun p =>
      p.domain = domain ∧ start = .ok p.state) = true := by
    cases goal <;> decide +kernel
  obtain ⟨p, hp, hparts⟩ := exists_of_any_toOption h
  obtain ⟨hdomain, hstate⟩ := of_decide_eq_true hparts
  obtain ⟨s, hs, hencoded⟩ := exists_start
  obtain rfl : s = p.state := Except.ok.inj (hs.symm.trans hstate)
  exact ⟨p, hp, hdomain, hencoded⟩

/-- The states of a crane yard follow its layouts.  The initial facts of the yard describe its
layout at the start.  In every problem whose initial facts describe a layout, a node describes
the layout that its moves lead to, and the moves at the node are the operations at that layout,
one for each. -/
theorem hasNode_describes_layout :
    (∃ s, start = .ok s ∧ startLayout.DescribedBy s) ∧
    ∀ (y : Yard) (l : Layout y) (p : Problem), p.domain = domain → l.DescribedBy p.state →
      ∀ n, p.HasNode n → ∃ l', l.Reaches n.path l' ∧ l'.DescribedBy n.state ∧
        ((n.survey p.domain.actions).moves.map moved).Perm (l'.operations.map Operation.moved) := by
  refine ⟨?_, fun y l p hdomain h n hn => ?_⟩
  · obtain ⟨s, hs, hencoded⟩ := exists_start
    exact ⟨s, hs, hencoded.describedBy⟩
  obtain ⟨l', hreaches, hl'⟩ := exists_reaches hdomain h n hn
  exact ⟨l', hreaches, hl', hdomain ▸ hl'.perm_moves⟩

/-- At the start each of the two arms can pick up what is at the top of the two stacks that are
not empty, and nothing else can be done. -/
theorem root_describes_startLayout : ∃ p, problem .rearrange = .ok p ∧ p.domain = domain ∧
    startLayout.DescribedBy p.state ∧ p.HasNode p.root ∧
    ((p.root.survey p.domain.actions).moves.map moved).Perm
      ([.pickUp "k1" "cc" "cb" "p1", .pickUp "k1" "cf" "ce" "q1", .pickUp "k2" "cc" "cb" "p1",
        .pickUp "k2" "cf" "ce" "q1"].map Operation.moved) := by
  obtain ⟨p, hp, hdomain, hencoded⟩ := exists_problem .rearrange
  have hstate := hencoded.describedBy
  obtain ⟨l, hreaches, -, hmoves⟩ :=
    hasNode_describes_layout.2 startYard startLayout p hdomain hstate p.root (hasNode_root p)
  -- The root has made no move, so its layout is that of the start.
  obtain rfl : l = startLayout := by
    cases hreaches
    rfl
  exact ⟨p, hp, hdomain, hstate, hasNode_root p, hmoves⟩

end ClassicalPlanning.CraneYard
