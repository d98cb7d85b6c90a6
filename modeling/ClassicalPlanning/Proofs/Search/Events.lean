/-
What a search reports.

A turn first reports that a new level has been reached, if it has and if progress is to be
reported (`Search.entered`).  Nothing else depends on whether progress is reported
(`step_eq_entered`), and `Search.Told` lists what else a turn reports: one event for each action
when it looks at a node, one for each child that it generates, one for a node that it has expanded,
and one for the end of the search.

Events are counted by their messages (`countEvents`), and the counts of a turn are read off the
list: `Told.of_more` for a turn after which the search goes on, `Told.of_ok` for one that ends it.
-/
import ClassicalPlanning.Proofs.Search.Course

namespace ClassicalPlanning

/-- How many of the events have the message. -/
def countEvents (message : String) (events : List Event) : ℕ :=
  events.countP fun e => e.message = message

/-- The limits, where progress is not to be reported. -/
def SearchLimits.quiet (limits : SearchLimits) : SearchLimits :=
  { limits with logProgress := false }

namespace Search

/-- The report of a new level with which the next turn begins. -/
def entered (limits : SearchLimits) (s : Search) : List Event :=
  match s.next? with
  | none => []
  | some node =>
    if limits.logProgress ∧ s.level? ≠ some node.level then
      [.levelEntered node.level s.frontier.toList.length]
    else []

/-- What a turn reports apart from a new level, and what it leads to. -/
inductive Told (p : Problem) (s : Search) : List Event → Turn → Prop
  /-- A search that ends without a fault reports its end. -/
  | ended {e : Event} {report : Report}
      (hmessage : e.message = "goal reached" ∨
        e.message = "search finished without reaching the goal") :
      Told p s [e] (.done (.ok report))
  /-- A node at the level cap is looked at. -/
  | capped {node : Node} {frontier : Queue Node} {depth : ℕ} {level? : Option ℕ} {limited : Bool} :
      Told p s ((node.survey p.domain.actions).events node.state.length)
        (.more { frontier, stats := { s.stats with depth }, level?, limited })
  /-- A node is looked at, and children are generated up to the fault. -/
  | faulty {node : Node} {fault : Fault} :
      Told p s ((node.survey p.domain.actions).events node.state.length ++
        (node.brood (node.survey p.domain.actions).moves).events) (.done (.error fault))
  /-- A node is looked at, all children are generated, and the node has been expanded. -/
  | expanded {node : Node} {frontier : Queue Node} {depth : ℕ} {level? : Option ℕ}
      {limited : Bool} :
      Told p s ((node.survey p.domain.actions).events node.state.length ++
        (node.brood (node.survey p.domain.actions).moves).events ++
        [.expanded node.level frontier.size])
        (.more
          { frontier
            stats :=
              { expanded := s.stats.expanded + 1
                generated := s.stats.generated +
                  (node.brood (node.survey p.domain.actions).moves).children.length
                depth }
            level?, limited })

end Search

/-! ## Counting -/

section Counting

variable {message : String} {events events' : List Event} {e : Event}

@[simp] lemma countEvents_append : countEvents message (events ++ events') =
    countEvents message events + countEvents message events' :=
  List.countP_append

lemma countEvents_cons : countEvents message (e :: events) =
    countEvents message events + if e.message = message then 1 else 0 := by
  simp [countEvents, List.countP_cons]

@[simp] lemma countEvents_singleton :
    countEvents message [e] = if e.message = message then 1 else 0 := by
  simp [countEvents, List.countP_singleton]

/-- A survey reports each of its actions. -/
@[simp] lemma countEvents_survey (survey : Survey) (facts : ℕ) :
    countEvents message (survey.events facts) =
      if "grounded action" = message then survey.length else 0 := by
  induction survey with
  | nil => simp [Survey.events, countEvents]
  | cons x survey ih =>
    rw [Survey.events, List.map_cons, countEvents_cons, ← Survey.events, ih, Event.message]
    split <;> simp

/-- A brood reports each of its children. -/
@[simp] lemma countEvents_brood (n : Node) (ms : List Move) :
    countEvents message (n.brood ms).events =
      if "applied action" = message then (n.brood ms).children.length else 0 := by
  induction ms with
  | nil => simp [Node.brood, countEvents]
  | cons m ms ih =>
    cases hm : n.apply m with
    | error fault => simp [Node.brood, hm, countEvents]
    | ok child =>
      simp only [Node.brood, hm, countEvents_cons, ih, Node.appliedEvent, Event.message]
      split
      next h => simp [h]
      next h => simp [h]

end Counting

namespace Search

variable {p : Problem} {limits : SearchLimits} {s next : Search} {events : List Event}
  {message : String}

/-! ## The report of a new level -/

@[simp] lemma entered_quiet : s.entered limits.quiet = [] := by
  unfold entered
  split
  · rfl
  · simp [SearchLimits.quiet]

lemma countEvents_entered (h : "exploration level" ≠ message) :
    countEvents message (s.entered limits) = 0 := by
  unfold entered
  split
  · rfl
  · split
    · simp [Event.message, h]
    · rfl

/-- What a turn does when it takes up a node. -/
lemma step_of_pop? (p : Problem) (limits : SearchLimits) {node : Node} {queue : Queue Node}
    (hpop : s.frontier.pop? = some (node, queue)) :
    (step p limits s).1 = s.entered limits ++ (visit p limits node queue
        { s.stats with depth := max s.stats.depth node.level } s.limited).1 ∧
      (step p limits s).2 = (visit p limits node queue
        { s.stats with depth := max s.stats.depth node.level } s.limited).2 := by
  have hfrontier := Queue.toList_of_pop? hpop
  have hnext : s.next? = some node := by rw [next?, hfrontier, List.head?_cons]
  have hlength : s.frontier.toList.length = queue.size + 1 := by
    rw [hfrontier, List.length_cons, Queue.size_eq_length_toList]
  simp only [step, hpop, entered, hnext, hlength, and_self]

/-- Whether progress is reported makes no difference but for the report of a new level. -/
lemma step_eq_entered (p : Problem) (limits : SearchLimits) (s : Search) :
    (step p limits s).1 = s.entered limits ++ (step p limits.quiet s).1 ∧
      (step p limits s).2 = (step p limits.quiet s).2 := by
  cases hpop : s.frontier.pop? with
  | none =>
    have hnext : s.next? = none := by rw [next?, Queue.pop?_eq_none_iff.mp hpop, List.head?_nil]
    simp [step, hpop, entered, hnext]
  | some popped =>
    obtain ⟨hevents, hturn⟩ := step_of_pop? p limits hpop
    obtain ⟨hevents', hturn'⟩ := step_of_pop? p limits.quiet hpop
    -- The limits themselves are the same.
    have hvisit : visit p limits.quiet = visit p limits := rfl
    rw [hevents, hturn, hevents', hturn', entered_quiet, hvisit, List.nil_append]
    exact ⟨rfl, rfl⟩

/-! ## The other reports of a turn -/

lemma told_visit (p : Problem) (limits : SearchLimits) (node : Node) (queue : Queue Node)
    (depth : ℕ) (s : Search) :
    Told p s (visit p limits node queue { s.stats with depth } s.limited).1
      (visit p limits node queue { s.stats with depth } s.limited).2 := by
  unfold visit
  split
  · exact .ended (.inl rfl)
  split
  · exact .capped
  split
  · exact .ended (.inr rfl)
  cases hfault : (node.brood (node.survey p.domain.actions).moves).fault? with
  | some fault =>
    simp only [expand, hfault]
    exact .faulty
  | none =>
    simp only [expand, hfault]
    exact .expanded

/-- A turn reports nothing else. -/
lemma told_step (p : Problem) (limits : SearchLimits) (s : Search) :
    Told p s (step p limits.quiet s).1 (step p limits s).2 := by
  rw [(step_eq_entered p limits s).2]
  cases hpop : s.frontier.pop? with
  | none =>
    simp only [step, hpop, finish]
    exact .ended (.inr rfl)
  | some popped =>
    obtain ⟨hevents, hturn⟩ := step_of_pop? p limits.quiet hpop
    rw [hevents, hturn, entered_quiet, List.nil_append]
    exact told_visit ..

/-- A turn after which the search goes on reports a look at each action, and whatever it adds to
the counts. -/
lemma Told.of_more (h : Told p s events (.more next)) :
    countEvents "grounded action" events = p.domain.actions.length ∧
      next.stats.expanded = s.stats.expanded + countEvents "expanded node" events ∧
      next.stats.generated = s.stats.generated + countEvents "applied action" events := by
  cases h with
  | capped => simp [Node.survey]
  | expanded => simp [Node.survey, Event.message]

/-- A turn that ends the search without a fault reports no look at an action, and no node. -/
lemma Told.of_ok {report : Report} (h : Told p s events (.done (.ok report))) :
    countEvents "grounded action" events = 0 ∧ countEvents "expanded node" events = 0 ∧
      countEvents "applied action" events = 0 := by
  cases h with
  | ended hmessage => rcases hmessage with hmessage | hmessage <;> simp [hmessage]

lemma Told.countEvents_level {turn : Turn} (h : Told p s events turn) :
    countEvents "exploration level" events = 0 := by
  cases h with
  | ended hmessage => rcases hmessage with hmessage | hmessage <;> simp [hmessage]
  | capped => simp
  | faulty => simp
  | expanded => simp [Event.message]

/-- What the turns report of actions and nodes does not include the levels. -/
lemma countEvents_step (message : String) (h : "exploration level" ≠ message) :
    countEvents message (step p limits s).1 = countEvents message (step p limits.quiet s).1 := by
  rw [(step_eq_entered p limits s).1, countEvents_append, countEvents_entered h, Nat.zero_add]

end Search

end ClassicalPlanning
