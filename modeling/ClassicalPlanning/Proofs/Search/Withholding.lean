/-
What limits withhold.

A search under limits is compared with a search of the same problem without limits, turn by
turn.  As long as the limited search has left nothing out, the two hold the same nodes in
their queues (`upheld_of_abreast`).  The first node at the level cap that has moves parts
them: the limited search passes it over, the other expands it and puts its children at the
end of the queue.  From then on all nodes that wait in the limited search are at the cap,
because the levels never fall, so it only tests them; the other search tests them in the same
order, but expands them too, with the children behind them all (`upheld_of_atCap`).

So limits withhold answers and do not change them, which is the main result,
`search_of_limits`.
-/
import ClassicalPlanning.Proofs.Search.Run
import ClassicalPlanning.Proofs.Walk

namespace ClassicalPlanning

namespace Search

/-- In the course of the search of the problem under the limits, the node is expanded. -/
def Expands (p : Problem) (limits : SearchLimits) (n : Node) : Prop :=
  ∃ s rest, Reached p limits s ∧ s.frontier.toList = n :: rest ∧ ¬ n.state.Satisfies p.goal ∧
    limits.caps n.level = false ∧ limits.spent s.stats.expanded = false

/-- What becomes of the verdict `v` of a search under limits when the limits are lifted. -/
inductive Upheld (p : Problem) (limits free : SearchLimits) (v : Except Fault Report)
    (v' : Option (Except Fault Report)) : Prop
  /-- A limit was reached, which says nothing about a search without limits. -/
  | withheld {report : Report} (hv : v = .ok report)
      (hout : report.outcome = .exhausted .limitReached)
  /-- The search without limits ends in the same way. -/
  | same {w : Except Fault Report} (hw : v' = some w)
      (hsame : w.map Report.outcome = v.map Report.outcome)
  /-- A node was found, but the search without limits comes upon a fault before, at a node at
  the level cap. -/
  | faulty {report : Report} {node n : Node} {fault : Fault} (hv : v = .ok report)
      (hfound : report.outcome = .found node) (hw : v' = some (.error fault))
      (hn : Expands p free n) (hfault : n.fault? p.domain.actions = some fault)
      (hlevel : limits.maxLevel = some n.level)

variable {p : Problem} {limits free : SearchLimits} {s s' : Search} {v : Except Fault Report}
  {fuel : ℕ} {log log' : Array Event}

/-! ## At the level cap -/

/-- Behind a node at the level cap all nodes that wait are at the cap. -/
lemma After.maxLevel_eq_of_caps {visited rest : List Node} {node : Node}
    (h : After p limits visited s) (hfrontier : s.frontier.toList = node :: rest)
    (hcap : limits.caps node.level = true) :
    ∀ n ∈ s.frontier.toList, limits.maxLevel = some n.level := by
  intro n hn
  have hlower : node.level ≤ n.level := by
    have hpairwise := (List.pairwise_append.mp h.pairwise_level).2.1
    rw [hfrontier] at hpairwise hn
    rcases List.mem_cons.mp hn with rfl | hn
    · exact le_rfl
    · exact List.rel_of_pairwise_cons hpairwise hn
  exact h.maxLevel_eq (List.mem_append_right _ hn) (SearchLimits.caps_of_le hcap hlower)

/-- When all nodes that wait are at the cap and something has been left out, a search can only
find one of the nodes or report the limit. -/
lemma outcome_of_atCap (hlimited : s.limited = true)
    (hcap : ∀ n ∈ s.frontier.toList, limits.maxLevel = some n.level)
    (hv : (Search.run p limits fuel s log).verdict? = some v) :
    ∃ report, v = .ok report ∧
      (report.outcome = .exhausted .limitReached ∨ ∃ node, report.outcome = .found node) := by
  induction fuel generalizing s log with
  | zero => simp [Search.run] at hv
  | succ fuel ih =>
    have hturn := turned_step p limits s
    generalize hstep : (step p limits s).2 = turn at hturn
    cases hturn with
    | exhausted =>
      rw [verdict?_run_of_done hstep, Option.some.injEq] at hv
      exact ⟨_, hv.symm, Or.inl (by simp [hlimited])⟩
    | found =>
      rw [verdict?_run_of_done hstep, Option.some.injEq] at hv
      exact ⟨_, hv.symm, Or.inr ⟨_, rfl⟩⟩
    | capped hfrontier _ _ hqueue =>
      rw [verdict?_run_of_more hstep] at hv
      obtain ⟨-, hrest⟩ := List.forall_mem_cons.mp (hfrontier ▸ hcap)
      exact ih (by simp [hlimited]) (hqueue ▸ hrest) hv
    | spent hfrontier _ hopen | faulty hfrontier _ hopen | expanded hfrontier _ hopen =>
      have hnode := SearchLimits.caps_self (hcap _ (hfrontier ▸ List.mem_cons_self))
      simp [hopen] at hnode

/-- If the search without limits comes upon a fault at a node that the limited search has
passed over, the limited search does not get further than the level of the node. -/
lemma upheld_of_passedOver (hlimited : s.limited = true)
    (hcap : ∀ n ∈ s.frontier.toList, limits.maxLevel = some n.level)
    (hv : (Search.run p limits fuel s log).verdict? = some v) {n : Node} {fault : Fault}
    (hn : Expands p free n) (hlevel : limits.maxLevel = some n.level)
    (hfault : n.fault? p.domain.actions = some fault) :
    Upheld p limits free v (some (.error fault)) := by
  obtain ⟨report, rfl, hout | ⟨found, hfound⟩⟩ := outcome_of_atCap hlimited hcap hv
  · exact .withheld rfl hout
  · exact .faulty rfl hfound rfl hn hfault hlevel

/-- A goal node that is next is found with and without limits. -/
lemma upheld_of_satisfies {node : Node} {rest : List Node} {report : Report}
    (hfrontier : s'.frontier.toList = node :: rest) (hgoal : node.state.Satisfies p.goal)
    (hfound : report.outcome = .found node) :
    Upheld p limits free (.ok report) (Search.run p free (fuel + 1) s' log').verdict? := by
  obtain ⟨report', hstep, hfound'⟩ := (turned_step p free s').of_satisfies hfrontier hgoal
  refine .same (verdict?_run_of_done hstep _ _) ?_
  simp [Except.map, hfound, hfound']

section Free

variable (hlevel : free.maxLevel = none) (hexpansions : free.maxExpansions = none)

include hlevel hexpansions

lemma expands_of_free (hs' : Reached p free s') {node : Node} {rest : List Node}
    (hfrontier : s'.frontier.toList = node :: rest) (hgoal : ¬ node.state.Satisfies p.goal) :
    Expands p free node :=
  ⟨s', rest, hs', hfrontier, hgoal, SearchLimits.caps_eq_false hlevel _,
    SearchLimits.spent_eq_false hexpansions _⟩

lemma turn_of_free {node : Node} {rest : List Node}
    (hfrontier : s'.frontier.toList = node :: rest) (hgoal : ¬ node.state.Satisfies p.goal) :
    (∃ fault, node.fault? p.domain.actions = some fault ∧
      (step p free s').2 = .done (.error fault)) ∨
    node.Faultless p.domain.actions ∧ ∃ next, (step p free s').2 = .more next ∧
      next.frontier.toList = rest ++ node.children p.domain.actions ∧
      next.limited = s'.limited :=
  (turned_step p free s').of_expandable hfrontier hgoal (SearchLimits.caps_eq_false hlevel _)
    (SearchLimits.spent_eq_false hexpansions _)

lemma goesOn_of_free {node : Node} {rest : List Node}
    (hfrontier : s'.frontier.toList = node :: rest) (hgoal : ¬ node.state.Satisfies p.goal)
    (hfaultless : node.Faultless p.domain.actions) :
    ∃ next, (step p free s').2 = .more next ∧
      next.frontier.toList = rest ++ node.children p.domain.actions ∧
      next.limited = s'.limited := by
  rcases turn_of_free hlevel hexpansions hfrontier hgoal with ⟨fault, hfault, -⟩ | ⟨-, hnext⟩
  · simp [fault?_eq_none_of_faultless hfaultless] at hfault
  · exact hnext

/-- The search without limits has further nodes in its queue, behind those of the limited
search, which are all at the cap. -/
lemma upheld_of_atCap (hs' : Reached p free s') (hlimited : s.limited = true)
    (hcap : ∀ n ∈ s.frontier.toList, limits.maxLevel = some n.level) {extra : List Node}
    (hfrontier' : s'.frontier.toList = s.frontier.toList ++ extra)
    (hv : (Search.run p limits fuel s log).verdict? = some v) :
    Upheld p limits free v (Search.run p free fuel s' log').verdict? := by
  -- In each turn the node passed over by the one search is expanded by the other, and its
  -- children add to the nodes behind.
  induction fuel generalizing s s' log log' extra with
  | zero => simp [Search.run] at hv
  | succ fuel ih =>
    have hturn := turned_step p limits s
    generalize hstep : (step p limits s).2 = turn at hturn
    cases hturn with
    | exhausted =>
      rw [verdict?_run_of_done hstep, Option.some.injEq] at hv
      exact .withheld hv.symm (by simp [hlimited])
    | found hfrontier hgoal =>
      rw [verdict?_run_of_done hstep, Option.some.injEq] at hv
      rw [hfrontier] at hfrontier'
      exact hv ▸ upheld_of_satisfies hfrontier' hgoal rfl
    | @capped node rest queue hfrontier hgoal _ hqueue =>
      rw [verdict?_run_of_more hstep] at hv
      rw [hfrontier, List.cons_append] at hfrontier'
      obtain ⟨hnode, hrest⟩ := List.forall_mem_cons.mp (hfrontier ▸ hcap)
      rw [← hqueue] at hrest
      rcases turn_of_free hlevel hexpansions hfrontier' hgoal with
        ⟨fault, hfault, hstep'⟩ | ⟨-, next, hstep', hnext, -⟩
      · rw [verdict?_run_of_done hstep']
        have hn := expands_of_free hlevel hexpansions hs' hfrontier' hgoal
        exact upheld_of_passedOver (by simp [hlimited]) hrest hv hn hnode hfault
      · rw [verdict?_run_of_more hstep']
        rw [List.append_assoc, ← hqueue] at hnext
        exact ih (hs'.turn hstep') (by simp [hlimited]) hrest hnext hv
    | spent hfrontier _ hopen | faulty hfrontier _ hopen | expanded hfrontier _ hopen =>
      have hnode := SearchLimits.caps_self (hcap _ (hfrontier ▸ List.mem_cons_self))
      simp [hopen] at hnode

/-! ## From the start -/

/-- As long as nothing has been left out, the two searches hold the same nodes. -/
lemma upheld_of_abreast {visited : List Node} (hs : After p limits visited s)
    (hs' : Reached p free s') (hlimited : s.limited = false) (hlimited' : s'.limited = false)
    (hfrontiers : s'.frontier.toList = s.frontier.toList)
    (hv : (Search.run p limits fuel s log).verdict? = some v) :
    Upheld p limits free v (Search.run p free fuel s' log').verdict? := by
  -- The invariant is that the queues are equal, until a node with moves is passed over.
  induction fuel generalizing s s' log log' visited with
  | zero => simp [Search.run] at hv
  | succ fuel ih =>
    have hturn := turned_step p limits s
    have hturn' := turned_step p limits s
    generalize hstep : (step p limits s).2 = turn at hturn hturn'
    cases hturn with
    | exhausted hempty =>
      rw [verdict?_run_of_done hstep, Option.some.injEq] at hv
      obtain ⟨report, hstep', hout⟩ :=
        (turned_step p free s').of_frontier_eq_nil (hfrontiers.trans hempty)
      refine .same (verdict?_run_of_done hstep' _ _) ?_
      rw [← hv]
      simp [Except.map, hout, hlimited, hlimited']
    | found hfrontier hgoal =>
      rw [verdict?_run_of_done hstep, Option.some.injEq] at hv
      exact hv ▸ upheld_of_satisfies (hfrontiers.trans hfrontier) hgoal rfl
    | @capped node rest queue hfrontier hgoal hcap hqueue =>
      rw [verdict?_run_of_more hstep] at hv
      have hatCap := hs.maxLevel_eq_of_caps hfrontier hcap
      obtain ⟨hnode, hrest⟩ := List.forall_mem_cons.mp (hfrontier ▸ hatCap)
      rw [← hqueue] at hrest
      have hfrontier' := hfrontiers.trans hfrontier
      by_cases hmoves : (node.survey p.domain.actions).moves = []
      -- A dead end has no children, so the searches stay abreast.
      · have hchildren : node.children p.domain.actions = [] := by
          rw [children_eq_filterMap, hmoves, List.filterMap_nil]
        have hfaultless : node.Faultless p.domain.actions := by simp [Node.Faultless, hmoves]
        obtain ⟨next, hstep', hnext, hnextlimited⟩ :=
          goesOn_of_free hlevel hexpansions hfrontier' hgoal hfaultless
        rw [verdict?_run_of_more hstep']
        obtain ⟨_, -, hafter⟩ := hs.turn hturn'
        refine ih hafter (hs'.turn hstep') (by simp [hlimited, hmoves])
          (hnextlimited.trans hlimited') ?_ hv
        rw [hnext, hchildren, List.append_nil, hqueue]
      -- Otherwise they part here.
      · have hopen : (s.limited || !(node.survey p.domain.actions).moves.isEmpty) = true := by
          simp [hmoves]
        rcases turn_of_free hlevel hexpansions hfrontier' hgoal with
          ⟨fault, hfault, hstep'⟩ | ⟨-, next, hstep', hnext, -⟩
        · rw [verdict?_run_of_done hstep']
          have hn := expands_of_free hlevel hexpansions hs' hfrontier' hgoal
          exact upheld_of_passedOver hopen hrest hv hn hnode hfault
        · rw [verdict?_run_of_more hstep']
          rw [← hqueue] at hnext
          exact upheld_of_atCap hlevel hexpansions (hs'.turn hstep') hopen hrest hnext hv
    | spent =>
      rw [verdict?_run_of_done hstep, Option.some.injEq] at hv
      exact .withheld hv.symm rfl
    | @faulty node rest fault hfrontier hgoal _ _ hfault =>
      rw [verdict?_run_of_done hstep, Option.some.injEq] at hv
      rcases turn_of_free hlevel hexpansions (hfrontiers.trans hfrontier) hgoal with
        ⟨fault', hfault', hstep'⟩ | ⟨hfaultless, -⟩
      · obtain rfl : fault = fault' := Option.some.inj (hfault.symm.trans hfault')
        exact .same (verdict?_run_of_done hstep' _ _) (hv ▸ rfl)
      · simp [fault?_eq_none_of_faultless hfaultless] at hfault
    | @expanded node rest queue hfrontier hgoal _ _ hfaultless hqueue =>
      rw [verdict?_run_of_more hstep] at hv
      obtain ⟨next, hstep', hnext, hnextlimited⟩ :=
        goesOn_of_free hlevel hexpansions (hfrontiers.trans hfrontier) hgoal hfaultless
      rw [verdict?_run_of_more hstep']
      obtain ⟨_, -, hafter⟩ := hs.turn hturn'
      exact ih hafter (hs'.turn hstep') hlimited (hnextlimited.trans hlimited')
        (hnext.trans hqueue.symm) hv

end Free

end Search

open Search

/-- What a search under limits answers, a search without limits answers in as many turns: that
there is no plan, and the same fault; and if the one finds a node, so does the other, the same
one, unless it comes before that upon a fault at a node at the level cap, which the search
under limits does not expand. -/
theorem search_of_limits (p : Problem) (limits free : SearchLimits)
    (hlevel : free.maxLevel = none) (hexpansions : free.maxExpansions = none) (fuel : ℕ) :
    (∀ report, p.search? limits fuel = some (.ok report) →
      report.outcome = .exhausted .noPlan →
      ∃ report', p.search? free fuel = some (.ok report') ∧
        report'.outcome = .exhausted .noPlan) ∧
    (∀ fault, p.search? limits fuel = some (.error fault) →
      p.search? free fuel = some (.error fault)) ∧
    (∀ report node, p.search? limits fuel = some (.ok report) → report.outcome = .found node →
      (∃ report', p.search? free fuel = some (.ok report') ∧ report'.outcome = .found node) ∨
      ∃ fault n, p.search? free fuel = some (.error fault) ∧ Expands p free n ∧
        n.fault? p.domain.actions = some fault ∧ limits.maxLevel = some n.level ∧
        ¬ Expands p limits n) := by
  have hupheld : ∀ v, p.search? limits fuel = some v →
      Upheld p limits free v (p.search? free fuel) := fun v hv =>
    upheld_of_abreast hlevel hexpansions (.start p limits) .start rfl rfl rfl hv
  refine ⟨fun report h hout => ?_, fun fault h => ?_, fun report node h hfound => ?_⟩
  · cases hupheld _ h with
    | withheld hv hlimit => simp [← Except.ok.inj hv, hout] at hlimit
    | faulty hv hfound => simp [← Except.ok.inj hv, hout] at hfound
    | same hw hsame =>
      obtain ⟨report', rfl, hout'⟩ := map_eq_ok_iff.mp hsame
      exact ⟨report', hw, hout'.trans hout⟩
  · cases hupheld _ h with
    | withheld hv => simp at hv
    | faulty hv => simp at hv
    | same hw hsame => rwa [map_eq_error_iff.mp hsame] at hw
  · cases hupheld _ h with
    | withheld hv hlimit => simp [← Except.ok.inj hv, hfound] at hlimit
    | same hw hsame =>
      obtain ⟨report', rfl, hfound'⟩ := map_eq_ok_iff.mp hsame
      exact Or.inl ⟨report', hw, hfound'.trans hfound⟩
    | @faulty _ _ n fault _ _ hw hn hfault hcap =>
      refine Or.inr ⟨fault, n, hw, hn, hfault, hcap, ?_⟩
      rintro ⟨_, _, _, _, _, hopen, _⟩
      simp [SearchLimits.caps_self hcap] at hopen

/-- Where the line forks, a search down to the first level finds its way; without the cap it
stumbles before it gets there, at a node that the cap keeps it from expanding.  On a line with
an end, and where the cap is too deep to help, the limits make no difference. -/
theorem walk_search_of_limits :
    (∃ report node, Walk.fork.search? { maxLevel := some 1 } 3 = some (.ok report) ∧
      report.outcome = .found node ∧
      ∃ fault n, Walk.fork.search? {} 3 = some (.error fault) ∧ Expands Walk.fork {} n ∧
        n.fault? [Walk.step, Walk.stumble] = some fault ∧ n.level = 1 ∧
        ¬ Expands Walk.fork { maxLevel := some 1 } n) ∧
    (∃ report report', (Walk.problem ["a", "b"] "z").search?
        { maxLevel := some 1, maxExpansions := some 1 } 3 = some (.ok report) ∧
      report.outcome = .exhausted .noPlan ∧
      (Walk.problem ["a", "b"] "z").search? {} 3 = some (.ok report') ∧
      report'.outcome = .exhausted .noPlan) ∧
    ∃ fault, Walk.fork.search? { maxLevel := some 2 } 3 = some (.error fault) ∧
      Walk.fork.search? {} 3 = some (.error fault) := by
  refine ⟨?_, ?_, ?_⟩
  · obtain ⟨-, -, hfound⟩ := search_of_limits Walk.fork { maxLevel := some 1 } {} rfl rfl 3
    obtain ⟨report, node, hsearch, hnode⟩ : ∃ report node,
        Walk.fork.search? { maxLevel := some 1 } 3 = some (.ok report) ∧
          report.outcome = .found node := ⟨_, _, rfl, rfl⟩
    obtain ⟨fault', hfault'⟩ : ∃ fault, Walk.fork.search? {} 3 = some (.error fault) := ⟨_, rfl⟩
    rcases hfound report node hsearch hnode with
      ⟨report', hreport', -⟩ | ⟨fault, n, hsearch', hn, hfault, hcap, hnot⟩
    · simp [hfault'] at hreport'
    · exact ⟨report, node, hsearch, hnode, fault, n, hsearch', hn, hfault,
        (Option.some.inj hcap).symm, hnot⟩
  · obtain ⟨hnoPlan, -, -⟩ := search_of_limits (Walk.problem ["a", "b"] "z")
      { maxLevel := some 1, maxExpansions := some 1 } {} rfl rfl 3
    obtain ⟨report, hsearch, hout⟩ : ∃ report, (Walk.problem ["a", "b"] "z").search?
        { maxLevel := some 1, maxExpansions := some 1 } 3 = some (.ok report) ∧
          report.outcome = .exhausted .noPlan := ⟨_, rfl, rfl⟩
    obtain ⟨report', hsearch', hout'⟩ := hnoPlan report hsearch hout
    exact ⟨report, report', hsearch, hout, hsearch', hout'⟩
  · obtain ⟨-, hfault, -⟩ := search_of_limits Walk.fork { maxLevel := some 2 } {} rfl rfl 3
    exact ⟨_, rfl, hfault _ rfl⟩

end ClassicalPlanning
