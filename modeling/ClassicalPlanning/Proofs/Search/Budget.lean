/-
The budget of expansions.

A search under a small budget of expansions does in each turn what it does under a larger one, as
long as the budget lasts.  Goal nodes are found and nodes at the level cap are passed over also
when it is spent, so the two part only where the smaller budget keeps a node from being expanded
(`Search.Leaves`), and there the search under it ends.

So a budget cuts a search short, but does not alter it, which is the main result,
`search_of_budget`.
-/
import ClassicalPlanning.Proofs.Search.Tally
import ClassicalPlanning.Proofs.Walk

namespace ClassicalPlanning

/-- The limits with the given budget of expansions. -/
def SearchLimits.withBudget (limits : SearchLimits) (budget : Option ℕ) : SearchLimits :=
  { limits with maxExpansions := budget }

namespace Search

/-- In its next turn the search takes up a node that it could expand, for it is neither a goal
node nor at the level cap, and leaves it unexpanded. -/
structure Leaves (p : Problem) (limits : SearchLimits) (s : Search) (n : Node) : Prop where
  next : s.next? = some n
  goalless : ¬ n.state.Satisfies p.goal
  uncapped : limits.caps n.level = false
  unexpanded : s.expands? p limits = none

variable {p : Problem} {limits : SearchLimits} {s : Search} {n : Node} {e : ℕ}
  {budget : Option ℕ}

/-! ## Where the budget is spent -/

lemma Leaves.spent (h : s.Leaves p limits n) : limits.spent s.stats.expanded = true := by
  cases hspent : limits.spent s.stats.expanded with
  | true => rfl
  | false =>
    have hexpands := expands?_eq_some_iff.mpr ⟨h.next, h.goalless, h.uncapped, hspent⟩
    simp [h.unexpanded] at hexpands

/-- A search that leaves a node unexpanded ends at the limit. -/
lemma Leaves.exists_report (h : s.Leaves p limits n) : ∃ report,
    (step p limits s).2 = .done (.ok report) ∧ report.outcome = .exhausted .limitReached ∧
      report.stats.expanded = s.stats.expanded := by
  have hturn := turned_step p limits s
  have hnext := h.next
  generalize (step p limits s).2 = turn at hturn ⊢
  cases hturn with
  | spent => exact ⟨_, rfl, rfl, rfl⟩
  | exhausted hempty => simp [next?, hempty] at hnext
  | found hfrontier hgoal =>
    obtain rfl := Option.some.inj ((next?_eq_some hfrontier).symm.trans hnext)
    exact absurd hgoal h.goalless
  | capped hfrontier _ hcap =>
    obtain rfl := Option.some.inj ((next?_eq_some hfrontier).symm.trans hnext)
    simp [h.uncapped] at hcap
  | faulty _ _ _ hspent | expanded _ _ _ hspent => simp [h.spent] at hspent

/-- A search that comes up has not expanded more than the budget, so if it leaves a node
unexpanded, it has spent all of it. -/
lemma Leaves.expanded_eq {before : List Search} (h : s.Leaves p limits n)
    (hpassed : Passed p limits before s) (he : limits.maxExpansions = some e) :
    s.stats.expanded = e := by
  have hle := hpassed.tallied.expanded_le e he
  have hge : e ≤ s.stats.expanded := by simpa [SearchLimits.spent, he] using h.spent
  exact Nat.le_antisymm hle hge

/-! ## Two budgets -/

section Budgets

variable (hle : ∀ e' ∈ budget, e ≤ e')

include hle

lemma spent_eq_false_of_le {expanded : ℕ}
    (h : (limits.withBudget (some e)).spent expanded = false) :
    (limits.withBudget budget).spent expanded = false := by
  have hlt : expanded < e := by simpa [SearchLimits.spent, SearchLimits.withBudget] using h
  cases hbudget : budget with
  | none => rfl
  | some e' =>
    simpa [SearchLimits.spent, SearchLimits.withBudget] using hlt.trans_le (hle e' hbudget)

/-- A turn under the smaller budget is a turn under the larger one, unless a node is left
unexpanded. -/
lemma step_eq_or_leaves (p : Problem) (limits : SearchLimits) (s : Search) :
    step p (limits.withBudget (some e)) s = step p (limits.withBudget budget) s ∨
      ∃ n, s.Leaves p (limits.withBudget (some e)) n := by
  cases hpop : s.frontier.pop? with
  | none => exact Or.inl (by rw [step, step, hpop])
  | some popped =>
    obtain ⟨n, queue⟩ := popped
    have hfrontier := Queue.toList_of_pop? hpop
    have hcaps : (limits.withBudget (some e)).caps n.level
        = (limits.withBudget budget).caps n.level := rfl
    by_cases hgoal : n.state.Satisfies p.goal
    · exact Or.inl (by simp only [step, hpop, visit, if_pos hgoal]; rfl)
    cases hcap : (limits.withBudget budget).caps n.level with
    | true => exact Or.inl (by simp only [step, hpop, visit, hcaps, hcap, if_true]; rfl)
    | false =>
      cases hspent : (limits.withBudget (some e)).spent s.stats.expanded with
      | true =>
        exact Or.inr ⟨n, next?_eq_some hfrontier, hgoal, hcap,
          expands?_eq_none hfrontier (.inr (.inr hspent))⟩
      | false =>
        have hspent' := spent_eq_false_of_le hle hspent
        exact Or.inl (by simp only [step, hpop, visit, hcaps, hspent, hspent']; rfl)

/-- A run under the smaller budget is a run under the larger one, unless it ends at a node that it
leaves unexpanded; then the other run goes through the same searches up to there. -/
lemma run_eq_or_leaves (p : Problem) (limits : SearchLimits) (fuel : ℕ) (s : Search)
    (log : Array Event) :
    run p (limits.withBudget (some e)) fuel s log = run p (limits.withBudget budget) fuel s log ∨
      ∃ v before last n,
        (run p (limits.withBudget (some e)) fuel s log).verdict? = some v ∧
        course p (limits.withBudget (some e)) fuel s = before ++ [last] ∧
        before ++ [last] <+: course p (limits.withBudget budget) fuel s ∧
        last.Leaves p (limits.withBudget (some e)) n := by
  induction fuel generalizing s log with
  | zero => exact Or.inl rfl
  | succ fuel ih =>
    rcases step_eq_or_leaves hle p limits s with hstep | ⟨n, hn⟩
    · cases hturn : (step p (limits.withBudget budget) s).2 with
      | done v =>
        rw [run_of_done hturn, run_of_done (hstep ▸ hturn), hstep]
        exact Or.inl rfl
      | more next =>
        rw [run_of_more hturn, run_of_more (hstep ▸ hturn), course_of_more hturn,
          course_of_more (hstep ▸ hturn), hstep]
        rcases ih next (log ++ (step p (limits.withBudget budget) s).1) with
          hrun | ⟨v, before, last, n, hv, hcourse, hbefore, hn⟩
        · exact Or.inl hrun
        · refine Or.inr ⟨v, s :: before, last, n, hv, by rw [hcourse, List.cons_append], ?_, hn⟩
          exact List.prefix_cons_iff.mpr (Or.inr ⟨_, rfl, hbefore⟩)
    · obtain ⟨report, hdone, -⟩ := hn.exists_report
      refine Or.inr
        ⟨_, [], s, n, verdict?_run_of_done hdone fuel log, course_of_done hdone, ?_, hn⟩
      cases hturn : (step p (limits.withBudget budget) s).2 with
      | done v => rw [course_of_done hturn, List.nil_append]
      | more next =>
        rw [course_of_more hturn, List.nil_append]
        exact List.prefix_append [s] _

end Budgets

end Search

open Search

/-- A search under a budget of `e` expansions is, turn by turn and with all that it reports, the
search under any larger budget or under none, unless it ends at the limit: then it has expanded
`e` nodes, it has gone through the same searches as the other one, and in its last turn it has
taken up a node that is neither a goal node nor at the level cap and left it unexpanded. -/
theorem search_of_budget (p : Problem) (limits : SearchLimits) (e : ℕ) (budget : Option ℕ)
    (hle : ∀ e' ∈ budget, e ≤ e') :
    (∀ fuel, p.search (limits.withBudget (some e)) fuel =
      p.search (limits.withBudget budget) fuel) ∨
    ∃ fuel report, p.search? (limits.withBudget (some e)) fuel = some (.ok report) ∧
      report.outcome = .exhausted .limitReached ∧ report.stats.expanded = e ∧
      ∃ before s n, p.course (limits.withBudget (some e)) fuel = before ++ [s] ∧
        before ++ [s] <+: p.course (limits.withBudget budget) fuel ∧
        s.Leaves p (limits.withBudget (some e)) n := by
  by_cases heq : ∀ fuel, p.search (limits.withBudget (some e)) fuel =
      p.search (limits.withBudget budget) fuel
  · exact Or.inl heq
  obtain ⟨fuel, hne⟩ := not_forall.mp heq
  rcases run_eq_or_leaves hle p limits fuel (.start p) #[] with
    hrun | ⟨v, before, s, n, hv, hcourse, hbefore, hn⟩
  · exact absurd hrun hne
  obtain ⟨before', s', hpassed, hdone, hcourse'⟩ := exists_passed_of_search? hv
  obtain ⟨rfl, hs⟩ := List.append_inj' (hcourse'.symm.trans hcourse) rfl
  obtain rfl := List.singleton_inj.mp hs
  obtain ⟨report, hreport, hout, hexpanded⟩ := hn.exists_report
  obtain rfl : v = .ok report := Turn.done.inj (hdone.symm.trans hreport)
  exact Or.inr ⟨fuel, report, hv, hout, hexpanded.trans (hn.expanded_eq hpassed rfl),
    before', s', n, hcourse, hbefore, hn⟩

/-- On a line of three places with the goal elsewhere, one expansion is too few: the search stops
at the second place, where a search with two expansions goes on. -/
theorem walk_search_of_budget :
    ∃ fuel report, (Walk.problem ["a", "b", "c"] "z").search? { maxExpansions := some 1 } fuel =
        some (.ok report) ∧
      report.outcome = .exhausted .limitReached ∧ report.stats.expanded = 1 := by
  rcases search_of_budget (Walk.problem ["a", "b", "c"] "z") {} 1 (some 2) (by simp) with
    hsame | ⟨fuel, report, hreport, hout, hexpanded, -⟩
  · have hverdict := congrArg (·.verdict?.isSome) (hsame 2)
    exact absurd hverdict (by decide)
  · exact ⟨fuel, report, hreport, hout, hexpanded⟩

end ClassicalPlanning
