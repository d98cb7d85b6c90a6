/-
Searches and the names of bound variables.

Two problems of one domain may have initial facts and goals that say the same, place by place,
and still differ in the names that bound variables have kept.  Their searches go in step: in
each turn they take up nodes that are equal once the names are taken away, and generate
children that are so again, with the same events, until both end in the same way or with the
same fault.  The plans that they find consist of facts that say the same, and they are written
alike.

The searches are compared through `Node.anonymous`.  Nodes with one anonymous form correspond
in the sense of searches that go in step, where every action is put in its own place
(`Node.anonymous_eq_iff`); `alike_run` draws the conclusion for searches, and the main result,
`search_of_equiv`, for problems.
-/
import ClassicalPlanning.Proofs.Search.Coherence
import ClassicalPlanning.Proofs.Search.Interchange

namespace ClassicalPlanning

def Move.anonymous (m : Move) : Move :=
  ⟨m.action, m.grounding.anonymous⟩

/-- The node without the names of bound variables. -/
def Node.anonymous (n : Node) : Node where
  state := n.state.map Literal.anonymous
  path := n.path.map Move.anonymous
  level := n.level
  level_eq := by rw [List.length_map, n.level_eq]
  explored := n.explored

/-- The outcome without the names of bound variables. -/
def Search.Outcome.anonymous : Search.Outcome → Search.Outcome
  | .found n => .found n.anonymous
  | .exhausted e => .exhausted e

def Search.Report.anonymous (r : Search.Report) : Search.Report :=
  { r with outcome := r.outcome.anonymous }

/-- Nodes with one anonymous form are those that come about by the same actions, from facts that
are equal up to names. -/
lemma Node.anonymous_eq_iff {n n' : Node} : n.anonymous = n'.anonymous ↔ n.Corresponds Eq n' := by
  constructor
  · intro h
    simp only [Node.anonymous, Node.mk.injEq] at h
    obtain ⟨hstate, hpath, -, hexplored⟩ := h
    refine ⟨hstate, forall₂_of_map_eq_map (fun m _ m' _ hm => ?_) hpath, hexplored⟩
    simpa [Move.anonymous] using hm
  · intro h
    have hpath : n.path.map Move.anonymous = n'.path.map Move.anonymous :=
      map_eq_map_of_forall₂ h.path fun m _ m' _ hm => by simp [Move.anonymous, hm.1, hm.2]
    simp [Node.anonymous, h.state, hpath, h.level_eq, h.explored]

namespace Search

/-- The searches are equal up to the names of bound variables. -/
structure Alike (s s' : Search) : Prop where
  frontier : s.frontier.toList.map Node.anonymous = s'.frontier.toList.map Node.anonymous
  stats : s.stats = s'.stats
  level? : s.level? = s'.level?
  limited : s.limited = s'.limited

/-- The problems have one domain, and their goals say the same. -/
structure SameTask (p q : Problem) : Prop where
  domain : q.domain = p.domain
  goal : p.goal.map Literal.proposition = q.goal.map Literal.proposition

variable {p q : Problem} {limits : SearchLimits} {s s' : Search}

lemma SameTask.inStep (htask : SameTask p q) : InStep p q Eq (Node.Corresponds Eq) := by
  refine inStep_of_interchangeable (fun a b hab => ?_) ?_ htask.goal
  · exact hab ▸ .refl (fun _ => rfl) a
  · rw [htask.domain]
    exact List.forall₂_same.mpr fun _ _ => rfl

lemma map_anonymous_eq_of_endAlike {v v' : Except Fault Report}
    (h : EndAlike Eq (Report.Paired (Node.Corresponds Eq)) v v') :
    v.map Report.anonymous = v'.map Report.anonymous := by
  cases h with
  | error h => rw [h]
  | ok h =>
    cases h with
    | exhausted => rfl
    | found hn =>
      simp only [Except.map, Report.anonymous, Outcome.anonymous, Node.anonymous_eq_iff.mpr hn]

/-- Searches that are alike give rise to the same events and end alike. -/
lemma alike_run (htask : SameTask p q) (h : s.Alike s') (fuel : ℕ) (log : Array Event) :
    (run p limits fuel s log).log = (run q limits fuel s' log).log ∧
      (run p limits fuel s log).verdict?.map (Except.map Report.anonymous) =
        (run q limits fuel s' log).verdict?.map (Except.map Report.anonymous) := by
  have hfrontier : List.Forall₂ (Node.Corresponds Eq) s.frontier.toList s'.frontier.toList :=
    forall₂_of_map_eq_map (fun _ _ _ _ => Node.anonymous_eq_iff.mp) h.frontier
  obtain ⟨hlog, hverdict⟩ :=
    htask.inStep.run limits ⟨hfrontier, h.stats, h.level?, h.limited⟩ fuel log
  refine ⟨hlog, ?_⟩
  generalize (run p limits fuel s log).verdict? = v at hverdict ⊢
  generalize (run q limits fuel s' log).verdict? = v' at hverdict ⊢
  cases hverdict with
  | none => rfl
  | some hverdict => rw [Option.map_some, Option.map_some, map_anonymous_eq_of_endAlike hverdict]

end Search

/-! ## Verdicts -/

/-- The verdicts of two searches are the same, but for the names of bound variables. -/
inductive Search.SameVerdict : Option (Except Fault Search.Report) →
    Option (Except Fault Search.Report) → Prop
  /-- Neither search has ended. -/
  | undecided : SameVerdict none none
  /-- Both came upon the same fault. -/
  | fault (fault : Fault) : SameVerdict (some (.error fault)) (some (.error fault))
  /-- Neither has found a goal node, and they did the same. -/
  | exhausted (e : Exhaustion) (stats : Search.Stats) :
      SameVerdict (some (.ok ⟨.exhausted e, stats⟩)) (some (.ok ⟨.exhausted e, stats⟩))
  /-- They found plans with the same actions and with facts that say the same, written alike,
  and they did the same. -/
  | found {n n' : Node} (stats : Search.Stats) (hnames : n.plan.names = n'.plan.names)
      (hfacts : List.Forall₂ (List.Forall₂ (· ≈ ·)) (n.plan.steps.map Plan.Step.matched)
        (n'.plan.steps.map Plan.Step.matched))
      (htext : n.plan.text = n'.plan.text) :
      SameVerdict (some (.ok ⟨.found n, stats⟩)) (some (.ok ⟨.found n', stats⟩))

lemma Search.sameVerdict_of_map_eq {v v' : Option (Except Fault Search.Report)}
    (h : v.map (Except.map Search.Report.anonymous) =
      v'.map (Except.map Search.Report.anonymous)) : Search.SameVerdict v v' := by
  rcases v with _ | fault | ⟨outcome, stats⟩ <;> rcases v' with _ | fault' | ⟨outcome', stats'⟩ <;>
    simp only [Option.map_none, Option.map_some, Except.map, reduceCtorEq, Option.some.injEq,
      Except.error.injEq, Except.ok.injEq, Search.Report.anonymous, Search.Report.mk.injEq] at h
  · exact .undecided
  · exact h ▸ .fault fault
  · obtain ⟨houtcome, rfl⟩ := h
    cases outcome with
    | found n =>
      cases outcome' with
      | exhausted => simp [Search.Outcome.anonymous] at houtcome
      | found n' =>
        have hn : n.anonymous = n'.anonymous := by
          simpa [Search.Outcome.anonymous] using houtcome
        have hplan : n.plan ≈ n'.plan :=
          (Node.anonymous_eq_iff.mp hn).plan_equiv fun a b hab => congrArg Action.name hab
        have hsteps := Plan.equiv_iff_forall₂.mp hplan
        refine .found stats ?_ ?_ (Plan.text_eq_of_equiv hplan)
        · exact map_eq_map_of_forall₂ hsteps fun _ _ _ _ hst => hst.1
        · rw [List.forall₂_map_left_iff, List.forall₂_map_right_iff]
          exact hsteps.imp fun _ _ hst => hst.2
    | exhausted e =>
      cases outcome' with
      | found => simp [Search.Outcome.anonymous] at houtcome
      | exhausted e' =>
        obtain rfl : e = e' := by simpa [Search.Outcome.anonymous] using houtcome
        exact .exhausted e stats

/-- If the initial facts and the goals of two problems of one domain say the same, place by
place, and the facts are well typed, their searches under any limits report the same events
and come to the same verdict after the same number of turns, whatever names their bound
variables have. -/
theorem search_of_equiv {p q : Problem} (hdomain : q.domain = p.domain)
    (hstate : List.Forall₂ (· ≈ ·) p.state q.state) (hgoal : List.Forall₂ (· ≈ ·) p.goal q.goal)
    (hp : ∀ l ∈ p.state, l.WellTyped) (hq : ∀ l ∈ q.state, l.WellTyped) (limits : SearchLimits)
    (fuel : ℕ) :
    (p.search limits fuel).log = (q.search limits fuel).log ∧
      Search.SameVerdict (p.search? limits fuel) (q.search? limits fuel) := by
  have htask : Search.SameTask p q :=
    ⟨hdomain, map_eq_map_of_forall₂ hgoal fun _ _ _ _ h => Literal.equiv_iff.mp h⟩
  have hroot : (Node.root p).takeUp.anonymous = (Node.root q).takeUp.anonymous := by
    have hfacts : p.state.map Literal.anonymous = q.state.map Literal.anonymous :=
      map_eq_map_of_forall₂ hstate fun l hl m hm h =>
        Literal.anonymous_eq_of_equiv h (hp l hl) (hq m hm)
    simp [Node.root, Node.takeUp, Node.anonymous, hfacts]
  have hstart : (Search.start p).Alike (Search.start q) :=
    ⟨by simp [Search.start, hroot], rfl, rfl, rfl⟩
  obtain ⟨hlog, hverdict⟩ := Search.alike_run htask hstart fuel #[]
  exact ⟨hlog, Search.sameVerdict_of_map_eq hverdict⟩

/-- The facts with all variables called the same. -/
def State.renamed (name : String) (s : State) : State :=
  s.map fun l => { l with arguments := l.arguments.map fun v => { v with name } }

/-- On a line of three places the walker finds the same way, told in the same words, when the
facts come with other names of their variables. -/
theorem walk_search_of_equiv : ∃ q : Problem,
    q.state = (Walk.start ["a", "b", "c"]).renamed "?place" ∧
    q.state ≠ Walk.start ["a", "b", "c"] ∧
    ∃ n n' stats,
      (Walk.problem ["a", "b", "c"] "c").search? {} 3 = some (.ok ⟨.found n, stats⟩) ∧
      q.search? {} 3 = some (.ok ⟨.found n', stats⟩) ∧ n.plan.text = n'.plan.text := by
  let p := Walk.problem ["a", "b", "c"] "c"
  let q : Problem := { p with state := p.state.renamed "?place" }
  have hp := (Walk.coherent ["a", "b", "c"] "c").wellTyped
  have hstate : List.Forall₂ (· ≈ ·) p.state q.state := by decide
  have hgoal : List.Forall₂ (· ≈ ·) p.goal q.goal := by decide
  have hq : ∀ l ∈ q.state, l.WellTyped := by
    intro l hl v hv o ho
    obtain ⟨m, hm, rfl⟩ := List.mem_map.mp hl
    obtain ⟨w, hw, rfl⟩ := List.mem_map.mp hv
    exact hp m hm w hw o ho
  obtain ⟨-, hverdict⟩ := search_of_equiv (p := p) (q := q) rfl hstate hgoal hp hq {} 3
  obtain ⟨⟨_, stats⟩, n, hn, rfl⟩ : ∃ (report : Search.Report) (node : Node),
      (Walk.problem ["a", "b", "c"] "c").search? {} 3 = some (.ok report) ∧
        report.outcome = .found node := ⟨_, _, rfl, rfl⟩
  rw [hn] at hverdict
  generalize hv : q.search? {} 3 = v at hverdict
  cases hverdict with
  | @found _ n' _ _ _ htext => exact ⟨q, rfl, by decide, n, n', stats, hn, hv, htext⟩

end ClassicalPlanning
