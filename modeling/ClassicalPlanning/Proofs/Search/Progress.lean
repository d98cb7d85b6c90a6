/-
The progress of a search.

The queue is a first-in first-out queue, so when the first node of a level comes up, all nodes of
the level before have been taken up, and all nodes of the level are waiting, with no others.  This
is when the level is reported, and the number of nodes waiting is the width of the search tree
there.  It makes no difference in what way the search ends, if it does.

A search that does not report its progress goes through the same turns and reports everything
else.

The main result is `search_progress`.
-/
import ClassicalPlanning.Proofs.Search.Events
import ClassicalPlanning.Proofs.Search.Tally
import ClassicalPlanning.Proofs.Walk

namespace ClassicalPlanning

/-- The number of the levels down to that of the last of the nodes. -/
def levelCount (visited : List Node) : ℕ :=
  visited.getLast?.elim 0 fun n => n.level + 1

/-- The reports of these levels. -/
def Problem.progress (p : Problem) (visited : List Node) : List Event :=
  (List.range (levelCount visited)).map fun level => .levelEntered level (p.width level)

@[simp] lemma levelCount_concat (visited : List Node) (n : Node) :
    levelCount (visited ++ [n]) = n.level + 1 := by
  simp [levelCount]

namespace Search

variable {p : Problem} {limits : SearchLimits} {s : Search} {visited expanded : List Node}
  {before : List Search}

/-! ## New levels -/

/-- Before the first node of a tier comes up, the levels above have been reached. -/
lemma levelCount_sweep_offspring {d : ℕ} (h : tier (p.offspring limits) p.root d ≠ []) :
    levelCount (sweep (p.offspring limits) p.root d) = d := by
  cases d with
  | zero => rfl
  | succ d =>
    have hbefore : tier (p.offspring limits) p.root d ≠ [] := fun hnil => h (by
      rw [tier, hnil, List.flatMap_nil])
    obtain ⟨front, last, hsplit⟩ := (List.eq_nil_or_concat' _).resolve_left hbefore
    have hlast : last ∈ tier (p.offspring limits) p.root d := by simp [hsplit]
    rw [sweep_succ, hsplit, ← List.append_assoc, levelCount_concat,
      level_of_mem_tier_offspring hlast]

/-- The node that comes up is of the level of the last one, or it is the first of the next level,
and just the nodes of that level are waiting. -/
lemma After.levelCount_eq (h : After p limits visited s) {node : Node} {rest : List Node}
    (hfrontier : s.frontier.toList = node :: rest) :
    levelCount visited = node.level + 1 ∨
      levelCount visited = node.level ∧ s.frontier.toList.length = p.width node.level := by
  obtain ⟨d, done, rest, htier, rfl, rfl⟩ := (hfrontier ▸ h.traversed).exists_tier_of_cons
  have hmem : node ∈ tier (p.offspring limits) p.root d := by simp [htier]
  rw [level_of_mem_tier_offspring hmem]
  rcases List.eq_nil_or_concat' done with rfl | ⟨done, last, rfl⟩
  · right
    have hne : tier (p.offspring limits) p.root d ≠ [] := List.ne_nil_of_mem hmem
    rw [List.append_nil, levelCount_sweep_offspring hne, hfrontier, Problem.width,
      ← tier_offspring_eq hne, htier]
    simp
  · left
    have hlast : last ∈ tier (p.offspring limits) p.root d := by simp [htier]
    rw [← List.append_assoc, levelCount_concat, level_of_mem_tier_offspring hlast]

/-- So a turn reports the level of the node that it takes up, if it has not been reported. -/
lemma Tallied.progress_eq (h : Tallied p limits visited expanded s)
    (hafter : After p limits visited s) (hlog : limits.logProgress = true) :
    p.progress visited ++ s.entered limits = p.progress (visited ++ s.next?.toList) := by
  cases hfrontier : s.frontier.toList with
  | nil => simp [entered, next?, hfrontier]
  | cons node rest =>
    have hlevel? : s.level? = some node.level ↔ levelCount visited = node.level + 1 := by
      rw [h.level?_eq, levelCount]
      cases visited.getLast? <;> simp
    rw [entered, next?_eq_some hfrontier, Option.toList_some, Problem.progress, Problem.progress,
      levelCount_concat]
    rcases hafter.levelCount_eq hfrontier with hsame | ⟨hnew, hwidth⟩
    · simp [hlevel?, hsame]
    · simp [hlevel?, hnew, hlog, hwidth, List.range_succ]

/-- The levels that have been reported are those of the nodes taken up. -/
lemma Passed.flatMap_entered (h : Passed p limits before s) (hlog : limits.logProgress = true) :
    before.flatMap (entered limits) = p.progress (before.filterMap next?) := by
  induction h with
  | start => rfl
  | @turn before s next hpassed _ ih =>
    rw [List.flatMap_append, List.flatMap_singleton, filterMap_concat, ih,
      hpassed.tallied.progress_eq hpassed.after.1 hlog]

/-! ## Searches that do not report their progress -/

lemma course_quiet (p : Problem) (limits : SearchLimits) (fuel : ℕ) (s : Search) :
    course p limits.quiet fuel s = course p limits fuel s := by
  induction fuel generalizing s with
  | zero => rfl
  | succ fuel ih => rw [course, course, ← (step_eq_entered p limits s).2]; simp only [ih]

lemma verdict?_run_quiet (p : Problem) (limits : SearchLimits) (fuel : ℕ) (s : Search)
    (log log' : Array Event) :
    (run p limits.quiet fuel s log).verdict? = (run p limits fuel s log').verdict? := by
  induction fuel generalizing s log log' with
  | zero => rfl
  | succ fuel ih =>
    have hturn := (step_eq_entered p limits s).2
    cases hstep : (step p limits s).2 with
    | more next =>
      rw [verdict?_run_of_more hstep, verdict?_run_of_more (hturn.symm.trans hstep)]
      exact ih ..
    | done v => rw [verdict?_run_of_done hstep, verdict?_run_of_done (hturn.symm.trans hstep)]

/-! ## Logs -/

/-- Of the events of a turn those of the levels are the ones with which it begins. -/
lemma filter_step (p : Problem) (limits : SearchLimits) (s : Search) :
    ((step p limits s).1.filter fun e => e.message = "exploration level") = s.entered limits ∧
      ((step p limits s).1.filter fun e => e.message ≠ "exploration level") =
        (step p limits.quiet s).1 := by
  have hentered : ∀ e ∈ s.entered limits, e.message = "exploration level" := by
    unfold entered
    split
    · simp
    · split <;> simp [Event.message]
  have hquiet : ∀ e ∈ (step p limits.quiet s).1, e.message ≠ "exploration level" := by
    have hcount := (told_step p limits s).countEvents_level
    rw [countEvents, List.countP_eq_zero] at hcount
    simpa using hcount
  rw [(step_eq_entered p limits s).1, List.filter_append, List.filter_append]
  constructor
  · rw [List.filter_eq_self.mpr (by simpa using hentered),
      List.filter_eq_nil_iff.mpr (by simpa using hquiet), List.append_nil]
  · rw [List.filter_eq_nil_iff.mpr (by simpa using hentered),
      List.filter_eq_self.mpr (by simpa using hquiet), List.nil_append]

end Search

open Search

variable {p : Problem} {limits : SearchLimits} {fuel : ℕ}

/-- The levels reported by a run are those of the nodes that it takes up. -/
lemma flatMap_entered_course (hlog : limits.logProgress = true) (fuel : ℕ) :
    (p.course limits fuel).flatMap (entered limits) = p.progress (p.visited limits fuel) := by
  obtain ⟨before, s, hpassed, hcourse | hcourse⟩ := exists_passed_course p limits fuel
  · rw [Problem.visited, hcourse, filterMap_concat, List.flatMap_append, List.flatMap_singleton,
      hpassed.flatMap_entered hlog, hpassed.tallied.progress_eq hpassed.after.1 hlog]
  · rw [Problem.visited, hcourse, hpassed.flatMap_entered hlog]

/-- A run that ends has taken up a node, and the last one is the deepest. -/
lemma exists_deepest {v : Except Fault Report} (h : p.search? limits fuel = some v) :
    ∃ deepest ∈ p.visited limits fuel, (p.visited limits fuel).getLast? = some deepest ∧
      ∀ n ∈ p.visited limits fuel, n.level ≤ deepest.level := by
  obtain ⟨before, s, hpassed, -, hcourse⟩ := exists_passed_of_search? h
  have hafter := hpassed.after.1
  have hvisited : p.visited limits fuel = before.filterMap next? ++ s.next?.toList := by
    rw [Problem.visited, hcourse, filterMap_concat]
  have hlevels := hafter.pairwise_level.sublist (append_next?_prefix_append _ s).sublist
  have hne := hafter.append_next?_ne_nil
  rw [← hvisited] at hlevels hne
  obtain ⟨front, deepest, hsplit⟩ := (List.eq_nil_or_concat' _).resolve_left hne
  rw [hsplit, List.pairwise_append] at hlevels
  rw [hsplit]
  refine ⟨deepest, by simp, by simp, fun n hn => ?_⟩
  rcases List.mem_append.mp hn with hn | hn
  · exact hlevels.2.2 n hn deepest List.mem_cons_self
  · rw [List.mem_singleton.mp hn]

/-- A search that ends has reported the levels of the nodes that it has taken up, one after the
other, each with the number of the nodes that the search tree has there.  If it does not report its
progress, it ends in the same way, and it reports everything else. -/
theorem search_progress (p : Problem) (limits : SearchLimits) (fuel : ℕ) :
    (limits.logProgress = true → ∀ v, p.search? limits fuel = some v →
      ∃ deepest, (∃ n ∈ p.visited limits fuel, n.level = deepest) ∧
        (∀ n ∈ p.visited limits fuel, n.level ≤ deepest) ∧
        ((p.search limits fuel).log.toList.filter fun e => e.message = "exploration level") =
          (List.range (deepest + 1)).map fun level => .levelEntered level (p.width level)) ∧
    p.search? limits.quiet fuel = p.search? limits fuel ∧
    (p.search limits.quiet fuel).log.toList =
      (p.search limits fuel).log.toList.filter fun e => e.message ≠ "exploration level" := by
  refine ⟨fun hlog v hv => ?_, verdict?_run_quiet p limits fuel (.start p) #[] #[], ?_⟩
  · obtain ⟨deepest, hmem, hlast, hle⟩ := exists_deepest hv
    refine ⟨deepest.level, ⟨deepest, hmem, rfl⟩, hle, ?_⟩
    rw [log_search, List.filter_flatMap]
    simp only [(filter_step p limits _).1]
    rw [flatMap_entered_course hlog, Problem.progress, levelCount, hlast]
    rfl
  · rw [log_search, log_search, List.filter_flatMap, Problem.course, course_quiet]
    simp only [(filter_step p limits _).2]
    rfl

/-- From a place with two ways to go on a search enters the second level with two nodes waiting, and
it comes upon a fault at the first of them. -/
theorem fork_progress :
    (∃ fault, Walk.fork.search? {} 2 = some (.error fault)) ∧
    (∃ deepest, (∃ n ∈ Walk.fork.visited {} 2, n.level = deepest) ∧
      (∀ n ∈ Walk.fork.visited {} 2, n.level ≤ deepest) ∧
      ((Walk.fork.search {} 2).log.toList.filter fun e => e.message = "exploration level") =
        (List.range (deepest + 1)).map fun level => .levelEntered level (Walk.fork.width level)) ∧
    ((Walk.fork.search {} 2).log.toList.filter fun e => e.message = "exploration level") =
      [.levelEntered 0 1, .levelEntered 1 2] ∧
    ∃ fault, Walk.fork.search? { logProgress := false } 2 = some (.error fault) := by
  obtain ⟨fault, hsearch⟩ : ∃ fault, Walk.fork.search? {} 2 = some (.error fault) := ⟨_, rfl⟩
  obtain ⟨hlevels, hquiet, -⟩ := search_progress Walk.fork {} 2
  exact ⟨⟨fault, hsearch⟩, hlevels rfl _ hsearch, rfl, fault, hquiet.trans hsearch⟩

end ClassicalPlanning
