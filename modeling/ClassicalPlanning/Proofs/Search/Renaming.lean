/-
Searches and the names of free variables.

An action with other names of its free variables is interchangeable with the action itself
(`Action.Renamed.interchangeable`), since it has the same groundings, and effects that are equal
but for the names that bound variables keep.  So a search does not see how the variables of a
domain are called, and nor do the children of a node.

The main result is `search_of_renamed`.  The actions of a domain may be renamed each in its own
way; the searches report the same, do the same, and find plans that say the same.  Where one of
them comes upon a fault the other one does, too, and the faults differ in the name of a variable
at most.
-/
import ClassicalPlanning.Proofs.Matching.Renaming
import ClassicalPlanning.Proofs.Search.Interchange
import ClassicalPlanning.Proofs.Walk

namespace ClassicalPlanning

/-- The problem `q` is the problem `p` with new names of the free variables of its actions. -/
structure Problem.Renamed (p q : Problem) : Prop where
  state : q.state = p.state
  goal : q.goal = p.goal
  actions : List.Forall₂ (fun a b => ∃ f, a.Renamed f b) p.domain.actions q.domain.actions

lemma Action.Renamed.interchangeable {f : String → String} {a b : Action} (h : a.Renamed f b) :
    a.Interchangeable Fault.SameKind b where
  name := h.name.symm
  preconditions := by rw [h.preconditions, List.length_map]
  groundings s := (h.groundings_eq s).symm
  effects := h.endAlike_effectsFor

/-- Moves by a grounding of an action and of the renamed action lead to the same facts, or their
effects are at fault. -/
lemma Action.Renamed.endAlike_apply {f : String → String} {a b : Action} (h : a.Renamed f b)
    {n : Node} {g : Grounding} (hg : g ∈ a.groundings n.state) :
    EndAlike Fault.SameKind (fun c c' => List.Forall₂ (· ≈ ·) c.state c'.state)
      (n.apply ⟨a, g⟩) (n.apply ⟨b, g⟩) := by
  have hn : n.Corresponds (fun _ _ => True) n :=
    ⟨rfl, List.forall₂_same.mpr fun _ _ => ⟨trivial, rfl⟩, rfl⟩
  have hg' : g ∈ b.groundings n.state := h.groundings_eq n.state ▸ hg
  have hchildren : EndAlike Fault.SameKind (Node.Corresponds fun _ _ => True)
      (n.apply ⟨a, g⟩) (n.apply ⟨b, g⟩) :=
    hn.endAlike_apply trivial h.interchangeable hg hg' rfl
  exact hchildren.imp (fun _ _ hkind => hkind) fun _ _ hchild =>
    forall₂_equiv_of_anonymous hchild.state

lemma Problem.Renamed.inStep {p q : Problem} (h : p.Renamed q) :
    Search.InStep p q Fault.SameKind (Node.Corresponds fun a b => ∃ f, a.Renamed f b) := by
  refine Search.inStep_of_interchangeable ?_ h.actions (by rw [h.goal])
  rintro a b ⟨f, hab⟩
  exact hab.interchangeable

/-- When the free variables of an action get new names, different ones for different names, the
action has the same groundings in every state, in the same order; each of them has effects that
say the same and leads to the same facts, or it comes upon a fault of the same kind.  When the
actions of a problem get such new names, its searches under any limits report the same events and
end alike after the same number of turns: with the same statistics and plans that say the same, or
with faults of one kind. -/
theorem search_of_renamed :
    (∀ (f : String → String) (a b : Action), a.Renamed f b → ∀ n : Node,
      b.groundings n.state = a.groundings n.state ∧
      ∀ g ∈ a.groundings n.state,
        EndAlike Fault.SameKind (List.Forall₂ (· ≈ ·)) (a.effectsFor g) (b.effectsFor g) ∧
        EndAlike Fault.SameKind (fun c c' => List.Forall₂ (· ≈ ·) c.state c'.state)
          (n.apply ⟨a, g⟩) (n.apply ⟨b, g⟩)) ∧
    ∀ p q : Problem, p.Renamed q → ∀ (limits : SearchLimits) (fuel : ℕ),
      (p.search limits fuel).log = (q.search limits fuel).log ∧
        Option.Rel (EndAlike Fault.SameKind (Search.Report.Paired fun n n' => n.plan ≈ n'.plan))
          (p.search? limits fuel) (q.search? limits fuel) := by
  constructor
  · intro f a b h n
    refine ⟨h.groundings_eq n.state, fun g hg => ⟨?_, h.endAlike_apply hg⟩⟩
    exact (h.endAlike_effectsFor g).imp (fun _ _ hkind => hkind) fun _ _ =>
      forall₂_equiv_of_anonymous
  · intro p q h limits fuel
    have hroot : (Node.root p).takeUp.Corresponds (fun a b => ∃ f, a.Renamed f b)
        (Node.root q).takeUp := by
      refine ⟨?_, .nil, rfl⟩
      simp [Node.root, Node.takeUp, h.state]
    have hstart : (Search.start p).Paired (Node.Corresponds fun a b => ∃ f, a.Renamed f b)
        (Search.start q) :=
      ⟨by simpa [Search.start] using hroot, rfl, rfl, rfl⟩
    obtain ⟨hlog, hverdict⟩ := h.inStep.run limits hstart fuel #[]
    refine ⟨hlog, Search.verdict_imp (fun n n' hn => ?_) hverdict⟩
    refine hn.plan_equiv ?_
    rintro a b ⟨f, hab⟩
    exact hab.name.symm

/-- The names of the two variables of a step exchanged. -/
def Walk.exchange (name : String) : String :=
  if name = "?from" then "?to" else if name = "?to" then "?from" else name

lemma Walk.injective_exchange : Function.Injective Walk.exchange := by
  intro x y h
  unfold Walk.exchange at h
  split_ifs at h <;> simp_all

/-- The problem with those names exchanged in all its actions. -/
def Walk.exchanged (p : Problem) : Problem :=
  { p with
    domain := { p.domain with actions := p.domain.actions.map (Action.rename Walk.exchange) } }

lemma Walk.renamed_exchanged (p : Problem) : p.Renamed (Walk.exchanged p) := by
  refine ⟨rfl, rfl, ?_⟩
  rw [Walk.exchanged, List.forall₂_map_right_iff]
  exact List.forall₂_same.mpr fun a _ =>
    ⟨Walk.exchange, Action.renamed_rename Walk.injective_exchange.injOn⟩

/-- With the names of its variables exchanged, the walker takes the same two steps on a line of
three places, and stumbles where the line forks, though over a variable of another name. -/
theorem walk_search_of_renamed :
    (∃ n n' stats,
      (Walk.problem ["a", "b", "c"] "c").search? {} 3 = some (.ok ⟨.found n, stats⟩) ∧
      (Walk.exchanged (Walk.problem ["a", "b", "c"] "c")).search? {} 3 =
        some (.ok ⟨.found n', stats⟩) ∧
      n.plan.names = ["step", "step"] ∧ n.plan ≈ n'.plan) ∧
    Walk.fork.search? {} 2 = some (.error (.unboundEffectVariable "stumble" "?to")) ∧
    (∃ x, (Walk.exchanged Walk.fork).search? {} 2 =
      some (.error (.unboundEffectVariable "stumble" x))) ∧
    (Action.rename Walk.exchange Walk.step).groundings (Walk.start ["a", "b", "c"]) =
      Walk.step.groundings (Walk.start ["a", "b", "c"]) := by
  refine ⟨?_, rfl, ?_, ?_⟩
  · obtain ⟨-, hverdict⟩ := search_of_renamed.2 _ _
      (Walk.renamed_exchanged (Walk.problem ["a", "b", "c"] "c")) {} 3
    obtain ⟨⟨_, stats⟩, n, hn, rfl, hnames⟩ : ∃ (report : Search.Report) (node : Node),
        (Walk.problem ["a", "b", "c"] "c").search? {} 3 = some (.ok report) ∧
          report.outcome = .found node ∧ node.plan.names = ["step", "step"] :=
      ⟨_, _, rfl, rfl, rfl⟩
    rw [hn] at hverdict
    obtain ⟨n', hn', hplan⟩ := Search.exists_of_verdict_found hverdict
    exact ⟨n, n', stats, hn, hn', hnames, hplan⟩
  · obtain ⟨-, hverdict⟩ := search_of_renamed.2 _ _ (Walk.renamed_exchanged Walk.fork) {} 2
    have hfork : Walk.fork.search? {} 2
        = some (.error (.unboundEffectVariable "stumble" "?to")) := rfl
    rw [hfork] at hverdict
    obtain ⟨fault, hfault, hkind⟩ := Search.exists_of_verdict_error hverdict
    cases hkind with
    | unboundEffectVariable _ _ x => exact ⟨x, hfault⟩
  · exact (search_of_renamed.1 _ _ _
      (Action.renamed_rename (a := Walk.step) Walk.injective_exchange.injOn)
      { state := Walk.start ["a", "b", "c"] }).1

end ClassicalPlanning
