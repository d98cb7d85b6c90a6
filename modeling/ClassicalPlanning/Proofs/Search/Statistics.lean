/-
The accounts of a search.

A search that ends without a fault has expanded the first nodes of the search tree, level by level:
those above the level cap, as far as it has come.  Its counts are the number of these nodes and the
number of their children, and it has reported as many events of them.  If there turns out to be no
plan, every child that has been generated has been taken up, and a node that has been taken up has
been expanded, unless it is at the cap.  So the root and the children are the nodes that have been
expanded and those of the level of the cap.

The main result is `search_accounts`.
-/
import ClassicalPlanning.Proofs.Search.Events
import ClassicalPlanning.Proofs.Search.Tally
import ClassicalPlanning.Proofs.Walk

namespace ClassicalPlanning

namespace Search

/-- What the report of a search that ended, and the events that it gave rise to, say of the nodes
that it took up and expanded. -/
structure Accounts (p : Problem) (limits : SearchLimits) (fuel : ℕ) (report : Report) : Prop where
  /-- The nodes expanded are the first nodes of the search tree, tier by tier. -/
  expanded_first :
    ∃ k, p.expanded limits fuel <+: sweep (Node.children p.domain.actions) p.root k
  /-- They are counted. -/
  expanded_count : report.stats.expanded = (p.expanded limits fuel).length
  /-- There was a child for each grounding of each action in each of them. -/
  generated_count : report.stats.generated =
    ((p.expanded limits fuel).map fun n =>
      (p.domain.actions.map fun a => (a.groundings n.state).length).sum).sum
  /-- The depth is the level of the node taken up last. -/
  depth_eq : (p.visited limits fuel).getLast?.map Node.level = some report.stats.depth
  /-- It keeps to the level cap. -/
  depth_le : ∀ m, limits.maxLevel = some m → report.stats.depth ≤ m
  /-- It is the level of the goal node that was found. -/
  depth_found : ∀ node, report.outcome = .found node → report.stats.depth = node.level
  /-- The limit on expansions was kept. -/
  expanded_le : ∀ e, limits.maxExpansions = some e → report.stats.expanded ≤ e
  /-- Where there is no plan, the nodes taken up are the root and the children of the nodes
  expanded, each once. -/
  visited_of_noPlan : report.outcome = .exhausted .noPlan →
    p.visited limits fuel =
      p.root :: (p.expanded limits fuel).flatMap (Node.children p.domain.actions)
  /-- And each of them was expanded, unless it was of the level of the cap. -/
  generated_of_noPlan : report.outcome = .exhausted .noPlan →
    1 + report.stats.generated = report.stats.expanded + limits.maxLevel.elim 0 p.width
  /-- Each child was reported. -/
  applied_events :
    countEvents "applied action" (p.search limits fuel).log.toList = report.stats.generated
  /-- Each node expanded was reported. -/
  expanded_events :
    countEvents "expanded node" (p.search limits fuel).log.toList = report.stats.expanded
  /-- A look at each action was reported of each node expanded, and of each node at the cap that
  was no goal node. -/
  grounded_events :
    countEvents "grounded action" (p.search limits fuel).log.toList =
      p.domain.actions.length * (report.stats.expanded +
        (p.visited limits fuel).countP fun n =>
          limits.maxLevel = some n.level ∧ ¬ n.state.Satisfies p.goal)

variable {p : Problem} {limits : SearchLimits} {s : Search} {before : List Search}
  {visited expanded : List Node} {report : Report}

/-! ## The nodes expanded -/

/-- Where a condition on the elements of a list fails for good once it has failed, the elements
that meet it come first. -/
lemma filter_prefix_of_pairwise {α : Type} {f : α → Bool} {l : List α}
    (h : l.Pairwise fun a b => f b = true → f a = true) : l.filter f <+: l := by
  induction l with
  | nil => exact List.prefix_rfl
  | cons a l ih =>
    obtain ⟨hle, hl⟩ := List.pairwise_cons.mp h
    cases ha : f a with
    | true =>
      rw [List.filter_cons_of_pos ha]
      exact List.prefix_cons_inj a |>.mpr (ih hl)
    | false =>
      have hnone : (a :: l).filter f = [] := by
        refine List.filter_eq_nil_iff.mpr fun b hb hfb => ?_
        rcases List.mem_cons.mp hb with rfl | hb
        · simp [ha] at hfb
        · simp [hle b hb hfb] at ha
      rw [hnone]
      exact ⟨a :: l, rfl⟩

/-- The nodes expanded are the first of the nodes taken up. -/
lemma Tallied.expanded_prefix_sweep (h : Tallied p limits visited expanded s)
    (hafter : After p limits visited s) :
    ∃ k, expanded <+: sweep (Node.children p.domain.actions) p.root k := by
  obtain ⟨k, hk⟩ := hafter.exists_sweep
  refine ⟨k, ?_⟩
  have hlevels := (List.pairwise_append.mp hafter.pairwise_level).1
  have hfirst : expanded <+: visited := by
    rw [h.expanded_eq]
    refine filter_prefix_of_pairwise (hlevels.imp fun {n n'} hle hcap => ?_)
    rw [Bool.not_eq_true', Bool.eq_false_iff] at hcap ⊢
    exact fun hcap' => hcap (SearchLimits.caps_of_le hcap' hle)
  exact (hfirst.trans (List.prefix_append _ _)).trans hk

lemma length_children {n : Node} {actions : List Action} (h : n.Faultless actions) :
    (n.children actions).length = (actions.map fun a => (a.groundings n.state).length).sum := by
  have hmoves : (n.children actions).length = (n.survey actions).moves.length := by
    rw [children_eq_filterMap, List.length_filterMap_eq_countP, List.countP_eq_length]
    intro m hm
    obtain ⟨child, hchild⟩ := h m hm
    simp [hchild, Except.toOption]
  rw [hmoves, Survey.moves, List.length_flatMap, Node.survey, List.map_map]
  simp [Function.comp_def]

lemma Tallied.generated_eq (h : Tallied p limits visited expanded s)
    (hafter : After p limits visited s) :
    s.stats.generated = (expanded.map fun n =>
      (p.domain.actions.map fun a => (a.groundings n.state).length).sum).sum := by
  rw [h.generated_count]
  congr 1
  refine List.map_congr_left fun n hn => ?_
  rw [h.expanded_eq, List.mem_filter] at hn
  exact length_children (hafter.faultless n hn.1 (by simpa using hn.2))

/-! ## The last turn -/

/-- The turn that ends a search without a fault expands nothing. -/
lemma Turned.of_ok (h : Turned p limits s (.done (.ok report))) :
    s.expands? p limits = none ∧ report.stats.expanded = s.stats.expanded ∧
      report.stats.generated = s.stats.generated := by
  cases h with
  | exhausted hempty => exact ⟨by rw [expands?, next?, hempty]; rfl, rfl, rfl⟩
  | found hfrontier hgoal => exact ⟨expands?_eq_none hfrontier (.inl hgoal), rfl, rfl⟩
  | spent hfrontier _ _ hspent =>
    exact ⟨expands?_eq_none hfrontier (.inr (.inr hspent)), rfl, rfl⟩

lemma Tallied.depth_eq_of_ok (h : Tallied p limits visited expanded s)
    (hafter : After p limits visited s) (hturn : Turned p limits s (.done (.ok report))) :
    (visited ++ s.next?.toList).getLast?.map Node.level = some report.stats.depth := by
  cases hturn with
  | exhausted hempty =>
    have hne := hafter.append_next?_ne_nil
    rw [next?, hempty, List.head?_nil, Option.toList_none, List.append_nil] at hne ⊢
    obtain ⟨last, hlast⟩ := Option.ne_none_iff_exists'.mp (mt List.getLast?_eq_none_iff.mp hne)
    rw [h.depth_eq, h.level?_eq, hlast]
    rfl
  | found hfrontier | spent hfrontier =>
    have hdepth := h.depth_le hafter hfrontier
    rw [next?_eq_some hfrontier, Option.toList_some, List.getLast?_concat]
    simpa using hdepth

/-! ## Searches that find out that there is no plan -/

lemma flatMap_offspring (p : Problem) (limits : SearchLimits) (visited : List Node) :
    visited.flatMap (p.offspring limits) =
      (visited.filter fun n => !limits.caps n.level).flatMap
        (Node.children p.domain.actions) := by
  induction visited with
  | nil => rfl
  | cons n visited ih => cases hcap : limits.caps n.level <;> simp [Problem.offspring, hcap, ih]

/-- The nodes that are taken up when no node is waiting any more are the root and the children of
those that have been expanded. -/
lemma Tallied.visited_eq (h : Tallied p limits visited expanded s)
    (hafter : After p limits visited s) (hempty : s.frontier.toList = []) :
    visited = p.root :: expanded.flatMap (Node.children p.domain.actions) := by
  have happend := hafter.traversed.append_eq
  rwa [hempty, List.append_nil, flatMap_offspring, ← h.expanded_eq] at happend

/-- Those at the level cap are the tier of that level. -/
lemma After.length_filter_caps (h : After p limits visited s) (hempty : s.frontier.toList = []) :
    (visited.filter fun n => limits.caps n.level).length = limits.maxLevel.elim 0 p.width := by
  cases hm : limits.maxLevel with
  | none => simp [SearchLimits.caps_eq_false hm]
  | some m =>
    have htraversed := h.traversed
    rw [hempty] at htraversed
    obtain ⟨k, hsweep, hend⟩ := htraversed.exists_eq_sweep
    have hvisited : visited = sweep (p.offspring limits) p.root (m + 1) :=
      hsweep.trans (sweep_eq_sweep hend fun _ hi => tier_offspring_eq_nil hm hi)
    have habove : (sweep (p.offspring limits) p.root m).filter (fun n => limits.caps n.level) =
        [] := by
      refine List.filter_eq_nil_iff.mpr fun n hn => ?_
      obtain ⟨j, hj, hn⟩ := mem_sweep.mp hn
      simp [level_of_mem_tier_offspring hn, SearchLimits.caps_eq_false_of_lt hm hj]
    have hat : (tier (p.offspring limits) p.root m).filter (fun n => limits.caps n.level) =
        tier (p.offspring limits) p.root m := by
      refine List.filter_eq_self.mpr fun n hn => ?_
      rw [level_of_mem_tier_offspring hn, SearchLimits.caps_self hm]
    have htier : tier (p.offspring limits) p.root m =
        tier (Node.children p.domain.actions) p.root m := by
      rw [tier_offspring, if_pos fun j hj => SearchLimits.caps_eq_false_of_lt hm hj]
    rw [hvisited, sweep_succ, List.filter_append, habove, hat, htier]
    rfl

/-- A node that has been taken up has been expanded or is at the level cap. -/
lemma Tallied.length_eq (h : Tallied p limits visited expanded s) :
    visited.length =
      expanded.length + (visited.filter fun n => limits.caps n.level).length := by
  rw [h.expanded_eq, ← List.countP_eq_length_filter, ← List.countP_eq_length_filter,
    List.length_eq_countP_add_countP (fun n : Node => limits.caps n.level), Nat.add_comm]
  simp

lemma Tallied.one_add_generated (h : Tallied p limits visited expanded s)
    (hafter : After p limits visited s) (hempty : s.frontier.toList = []) :
    1 + s.stats.generated = s.stats.expanded + limits.maxLevel.elim 0 p.width := by
  have hlength := congrArg List.length (h.visited_eq hafter hempty)
  rw [List.length_cons, List.length_flatMap, ← h.generated_count, h.length_eq,
    hafter.length_filter_caps hempty, ← h.expanded_count] at hlength
  omega

/-! ## Events -/

/-- What has been reported of actions and nodes agrees with the counts. -/
lemma Passed.countEvents_eq (h : Passed p limits before s) :
    countEvents "grounded action" (before.flatMap fun s => (step p limits s).1) =
        p.domain.actions.length * before.length ∧
      countEvents "expanded node" (before.flatMap fun s => (step p limits s).1) =
        s.stats.expanded ∧
      countEvents "applied action" (before.flatMap fun s => (step p limits s).1) =
        s.stats.generated := by
  induction h with
  | start => simp [countEvents, Search.start]
  | @turn before s next _ hstep ih =>
    obtain ⟨hgrounded, hexpanded, hgenerated⟩ := ih
    obtain ⟨hsurvey, hmore, hchildren⟩ := (hstep ▸ told_step p limits s).of_more
    simp only [List.flatMap_append, List.flatMap_singleton, countEvents_append, hgrounded,
      hexpanded, hgenerated, List.length_append, List.length_singleton]
    rw [countEvents_step "grounded action" (by decide),
      countEvents_step "expanded node" (by decide), countEvents_step "applied action" (by decide),
      hsurvey, hmore, hchildren, Nat.mul_succ]
    exact ⟨rfl, rfl, rfl⟩

/-- The turn that ends a search without a fault does not add to this. -/
lemma countEvents_of_ok (h : (step p limits s).2 = .done (.ok report)) :
    countEvents "grounded action" (step p limits s).1 = 0 ∧
      countEvents "expanded node" (step p limits s).1 = 0 ∧
      countEvents "applied action" (step p limits s).1 = 0 := by
  rw [countEvents_step "grounded action" (by decide), countEvents_step "expanded node" (by decide),
    countEvents_step "applied action" (by decide)]
  exact (h ▸ told_step p limits s).of_ok

/-- The nodes that are taken up at the level cap by a search that ends without a fault, and that
are no goal nodes: all but a last one that is not left unexpanded. -/
lemma countP_capped_of_ok (hafter : After p limits visited s)
    (hturn : Turned p limits s (.done (.ok report))) :
    ((visited ++ s.next?.toList).countP fun n =>
        limits.maxLevel = some n.level ∧ ¬ n.state.Satisfies p.goal) =
      (visited.filter fun n => limits.caps n.level).length := by
  have hlast : (s.next?.toList.countP fun n =>
      limits.maxLevel = some n.level ∧ ¬ n.state.Satisfies p.goal) = 0 := by
    cases hturn with
    | exhausted hempty => rw [next?, hempty]; rfl
    | found hfrontier hgoal => simp [next?_eq_some hfrontier, hgoal]
    | @spent node rest hfrontier hgoal hcap hspent =>
      have hlevel : limits.maxLevel ≠ some node.level := fun hm => by
        simp [SearchLimits.caps_self hm] at hcap
      simp [next?_eq_some hfrontier, hlevel]
  rw [List.countP_append, hlast, Nat.add_zero, ← List.countP_eq_length_filter]
  refine List.countP_congr fun n hn => ?_
  have hgoal := hafter.goalless n hn
  simp only [hgoal, not_false_eq_true, and_true, decide_eq_true_eq]
  exact ⟨SearchLimits.caps_self, hafter.maxLevel_eq (List.mem_append_left _ hn)⟩

/-- There is no plan only if no node is waiting any more. -/
lemma Turned.frontier_eq_nil (h : Turned p limits s (.done (.ok report)))
    (hout : report.outcome = .exhausted .noPlan) : s.frontier.toList = [] := by
  cases h with
  | exhausted hempty => exact hempty
  | found => simp at hout
  | spent => simp at hout

lemma Tallied.depth_of_found (h : Tallied p limits visited expanded s)
    (hafter : After p limits visited s) (hturn : Turned p limits s (.done (.ok report))) {n : Node}
    (hfound : report.outcome = .found n) : report.stats.depth = n.level := by
  cases hturn with
  | exhausted => simp at hfound
  | spent => simp at hfound
  | @found node rest hfrontier hgoal =>
    obtain rfl : node = n := by simpa using hfound
    exact Nat.max_eq_right (h.depth_le hafter hfrontier)

end Search

open Search

variable {p : Problem} {limits : SearchLimits} {fuel : ℕ} {report : Report}

/-- A search that ends without a fault does so in a turn that adds nothing to the counts. -/
lemma exists_tallied_of_ok (h : p.search? limits fuel = some (.ok report)) :
    ∃ visited s, After p limits visited s ∧ Tallied p limits visited (p.expanded limits fuel) s ∧
      Turned p limits s (.done (.ok report)) ∧
      p.visited limits fuel = visited ++ s.next?.toList ∧
      countEvents "grounded action" (p.search limits fuel).log.toList =
        p.domain.actions.length * visited.length ∧
      countEvents "expanded node" (p.search limits fuel).log.toList = s.stats.expanded ∧
      countEvents "applied action" (p.search limits fuel).log.toList = s.stats.generated := by
  obtain ⟨before, s, hpassed, hdone, hcourse⟩ := exists_passed_of_search? h
  obtain ⟨hafter, hlength⟩ := hpassed.after
  have hturn : Turned p limits s (.done (.ok report)) := hdone ▸ turned_step p limits s
  have hexpanded : p.expanded limits fuel = before.filterMap (expands? p limits) := by
    rw [Problem.expanded, hcourse, filterMap_concat, hturn.of_ok.1, Option.toList_none,
      List.append_nil]
  have hlog : ∀ message, countEvents message (p.search limits fuel).log.toList =
      countEvents message (before.flatMap fun s => (step p limits s).1) +
        countEvents message (step p limits s).1 := by
    intro message
    rw [log_search, hcourse, List.flatMap_append, List.flatMap_singleton, countEvents_append]
  obtain ⟨hgrounded, hnodes, hchildren⟩ := hpassed.countEvents_eq
  obtain ⟨hgrounded', hnodes', hchildren'⟩ := countEvents_of_ok hdone
  refine ⟨before.filterMap next?, s, hafter, hexpanded ▸ hpassed.tallied, hturn, ?_, ?_, ?_, ?_⟩
  · rw [Problem.visited, hcourse, filterMap_concat]
  · rw [hlog, hgrounded, hgrounded', hlength, Nat.add_zero]
  · rw [hlog, hnodes, hnodes', Nat.add_zero]
  · rw [hlog, hchildren, hchildren', Nat.add_zero]

/-- The report of a search that ends without a fault accounts for all nodes, and so do the events
that it gave rise to. -/
theorem search_accounts (h : p.search? limits fuel = some (.ok report)) :
    Accounts p limits fuel report := by
  obtain ⟨visited, s, hafter, htallied, hturn, hvisited, hgrounded, hnodes, hchildren⟩ :=
    exists_tallied_of_ok h
  obtain ⟨-, hexpanded, hgenerated⟩ := hturn.of_ok
  have hdepth := htallied.depth_eq_of_ok hafter hturn
  exact {
    expanded_first := htallied.expanded_prefix_sweep hafter
    expanded_count := hexpanded.trans htallied.expanded_count
    generated_count := hgenerated.trans (htallied.generated_eq hafter)
    depth_eq := by rw [hvisited, hdepth]
    depth_le := by
      intro m hm
      obtain ⟨last, hlast, hlevel⟩ := Option.map_eq_some_iff.mp hdepth
      have hmem := (append_next?_prefix_append visited s).subset (List.mem_of_getLast? hlast)
      rw [← hlevel]
      exact hafter.level_le hm hmem
    depth_found := fun node hfound => htallied.depth_of_found hafter hturn hfound
    expanded_le := fun e he => hexpanded ▸ htallied.expanded_le e he
    visited_of_noPlan := by
      intro hout
      have hempty := hturn.frontier_eq_nil hout
      rw [hvisited, next?, hempty, ← htallied.visited_eq hafter hempty]
      exact List.append_nil visited
    generated_of_noPlan := by
      intro hout
      rw [hgenerated, hexpanded]
      exact htallied.one_add_generated hafter (hturn.frontier_eq_nil hout)
    applied_events := hchildren.trans hgenerated.symm
    expanded_events := hnodes.trans hexpanded.symm
    grounded_events := by
      rw [hgrounded, hvisited, countP_capped_of_ok hafter hturn, hexpanded,
        htallied.expanded_count, ← htallied.length_eq] }

/-- On a line of three places a search for a fourth one expands the walker's first two nodes, and a
look at the action is reported at the third as well, which is at the cap.  A search for the third
place finds it. -/
theorem walk_accounts :
    (∃ report : Report,
      (Walk.problem ["a", "b", "c"] "z").search? { maxLevel := some 2 } 4 = some (.ok report) ∧
      report = ⟨.exhausted .noPlan, ⟨2, 2, 2⟩⟩ ∧
      Accounts (Walk.problem ["a", "b", "c"] "z") { maxLevel := some 2 } 4 report) ∧
    countEvents "grounded action" ((Walk.problem ["a", "b", "c"] "z").search
      { maxLevel := some 2 } 4).log.toList = 1 * (2 + 1) ∧
    ∃ (report : Report) (n : Node),
      (Walk.problem ["a", "b", "c"] "c").search? { maxExpansions := some 2 } 3 =
        some (.ok report) ∧
      report = ⟨.found n, ⟨2, 2, n.level⟩⟩ ∧
      Accounts (Walk.problem ["a", "b", "c"] "c") { maxExpansions := some 2 } 3 report := by
  obtain ⟨report, hsearch, hreport⟩ : ∃ report : Report,
      (Walk.problem ["a", "b", "c"] "z").search? { maxLevel := some 2 } 4 = some (.ok report) ∧
        report = ⟨.exhausted .noPlan, ⟨2, 2, 2⟩⟩ := ⟨_, rfl, rfl⟩
  obtain ⟨report', n, hsearch', hreport'⟩ : ∃ (report : Report) (n : Node),
      (Walk.problem ["a", "b", "c"] "c").search? { maxExpansions := some 2 } 3 =
        some (.ok report) ∧ report = ⟨.found n, ⟨2, 2, n.level⟩⟩ := ⟨_, _, rfl, rfl⟩
  exact ⟨⟨report, hsearch, hreport, search_accounts hsearch⟩, rfl,
    report', n, hsearch', hreport', search_accounts hsearch'⟩

end ClassicalPlanning
