/-
Searches that go in step.

When the nodes of two problems are related in such a way that a search cannot tell related nodes
apart, the searches go in step: in each turn they take up related nodes, generate related
children with the same events, and in the end they find related goal nodes, or nothing, or come
upon faults that are related.

`Search.InStep` says what is asked of the relation.  It is about one node and its moves; the rest
is done here once for all: first the children of a node (`InStep.brood`), then a turn
(`InStep.step`), and then the main result, `InStep.run`, about a whole search.
-/
import ClassicalPlanning.Proofs.Outcome
import ClassicalPlanning.Search.BreadthFirst

namespace ClassicalPlanning

namespace Search

/-- The searches of two problems cannot tell related nodes apart. -/
structure InStep (p q : Problem) (φ : Fault → Fault → Prop) (r : Node → Node → Prop) : Prop where
  /-- Related nodes are of one level. -/
  level {n n' : Node} (h : r n n') : n.level = n'.level
  /-- Their states have as many facts. -/
  facts {n n' : Node} (h : r n n') : n.state.length = n'.state.length
  /-- Both are goal nodes, or neither is. -/
  satisfies {n n' : Node} (h : r n n') : n.state.Satisfies p.goal ↔ n'.state.Satisfies q.goal
  /-- The same is reported of their groundings. -/
  events {n n' : Node} (h : r n n') (facts : ℕ) :
    (n.survey p.domain.actions).events facts = (n'.survey q.domain.actions).events facts
  /-- Their moves correspond, in order, and those that correspond lead to related nodes or are at
  fault in related ways. -/
  moves {n n' : Node} (h : r n n') :
    List.Forall₂
      (fun m m' => m.action.name = m'.action.name ∧ EndAlike φ r (n.apply m) (n'.apply m'))
      (n.survey p.domain.actions).moves (n'.survey q.domain.actions).moves
  /-- They remain related when they are taken up. -/
  takeUp {n n' : Node} (h : r n n') : r n.takeUp n'.takeUp

/-- The searches have done the same, and related nodes are waiting. -/
structure Paired (r : Node → Node → Prop) (s s' : Search) : Prop where
  frontier : List.Forall₂ r s.frontier.toList s'.frontier.toList
  stats : s.stats = s'.stats
  level? : s.level? = s'.level?
  limited : s.limited = s'.limited

/-- The reports are the same, but for the goal nodes, which are related. -/
inductive Report.Paired (r : Node → Node → Prop) : Report → Report → Prop
  /-- Goal nodes were found. -/
  | found {n n' : Node} (h : r n n') (stats : Stats) :
      Report.Paired r ⟨.found n, stats⟩ ⟨.found n', stats⟩
  /-- No goal node was found. -/
  | exhausted (outcome : Exhaustion) (stats : Stats) :
      Report.Paired r ⟨.exhausted outcome, stats⟩ ⟨.exhausted outcome, stats⟩

section Verdicts

variable {φ : Fault → Fault → Prop} {r r' : Node → Node → Prop}
  {v v' : Option (Except Fault Report)}

/-- What relates the goal nodes of two verdicts may be replaced by what follows from it. -/
lemma verdict_imp (hr : ∀ n n', r n n' → r' n n')
    (h : Option.Rel (EndAlike φ (Report.Paired r)) v v') :
    Option.Rel (EndAlike φ (Report.Paired r')) v v' := by
  cases h with
  | none => exact .none
  | some h =>
    refine .some (h.imp (fun _ _ hfault => hfault) fun report report' hreport => ?_)
    cases hreport with
    | found hn stats => exact .found (hr _ _ hn) stats
    | exhausted outcome stats => exact .exhausted outcome stats

lemma exists_of_verdict_found {n : Node} {stats : Stats}
    (h : Option.Rel (EndAlike φ (Report.Paired r)) (some (.ok ⟨.found n, stats⟩)) v') :
    ∃ n', v' = some (.ok ⟨.found n', stats⟩) ∧ r n n' := by
  cases h with
  | some h =>
    cases h with
    | ok h =>
      cases h with
      | found hn => exact ⟨_, rfl, hn⟩

lemma exists_of_verdict_error {fault : Fault}
    (h : Option.Rel (EndAlike φ (Report.Paired r)) (some (.error fault)) v') :
    ∃ fault', v' = some (.error fault') ∧ φ fault fault' := by
  cases h with
  | some h =>
    cases h with
    | error hfault => exact ⟨_, rfl, hfault⟩

end Verdicts

/-- The turns lead to searches that have done the same, or to ends that are alike. -/
inductive Turn.Paired (φ : Fault → Fault → Prop) (r : Node → Node → Prop) : Turn → Turn → Prop
  /-- Both searches go on. -/
  | more {s s' : Search} (h : s.Paired r s') : Turn.Paired φ r (.more s) (.more s')
  /-- Both searches have ended. -/
  | done {v v' : Except Fault Report} (h : EndAlike φ (Report.Paired r) v v') :
      Turn.Paired φ r (.done v) (.done v')

namespace InStep

variable {p q : Problem} {φ : Fault → Fault → Prop} {r : Node → Node → Prop}
  {limits : SearchLimits} {s s' : Search} {n n' : Node} {queue queue' : Queue Node}

/-- Moves that correspond have related children, generated with the same events up to the same
place. -/
lemma brood (h : InStep p q φ r) {ms ms' : List Move}
    (hms : List.Forall₂ (fun m m' => m.action.name = m'.action.name ∧
      EndAlike φ r (n.apply m) (n'.apply m')) ms ms') :
    List.Forall₂ r (n.brood ms).children (n'.brood ms').children ∧
      (n.brood ms).events = (n'.brood ms').events ∧
      Option.Rel φ (n.brood ms).fault? (n'.brood ms').fault? := by
  induction hms with
  | nil => exact ⟨.nil, rfl, .none⟩
  | @cons m m' ms ms' hm _ ih =>
    obtain ⟨hname, happly⟩ := hm
    obtain ⟨hchildren, hevents, hfault⟩ := ih
    rw [Node.brood, Node.brood]
    generalize n.apply m = x at happly
    generalize n'.apply m' = x' at happly
    cases happly with
    | error hfault => exact ⟨.nil, rfl, .some hfault⟩
    | ok hchild =>
      refine ⟨.cons hchild hchildren, ?_, hfault⟩
      simp only [Node.appliedEvent, hname, h.level hchild, h.facts hchild, hevents]

lemma isEmpty_moves (h : InStep p q φ r) (hn : r n n') :
    (n.survey p.domain.actions).moves.isEmpty = (n'.survey q.domain.actions).moves.isEmpty := by
  rw [Bool.eq_iff_iff, List.isEmpty_iff_length_eq_zero, List.isEmpty_iff_length_eq_zero,
    (h.moves hn).length_eq]

lemma size_eq (hqueue : List.Forall₂ r queue.toList queue'.toList) : queue.size = queue'.size := by
  rw [Queue.size_eq_length_toList, Queue.size_eq_length_toList, hqueue.length_eq]

lemma expand (h : InStep p q φ r) (hn : r n n')
    (hqueue : List.Forall₂ r queue.toList queue'.toList) (stats : Stats) (limited : Bool) :
    (expand p n queue stats limited).1 = (expand q n' queue' stats limited).1 ∧
      Turn.Paired φ r (expand p n queue stats limited).2 (expand q n' queue' stats limited).2 := by
  obtain ⟨hchildren, hevents, hfault⟩ := h.brood (h.moves hn)
  rw [Search.expand, Search.expand]
  generalize n.brood (n.survey p.domain.actions).moves = b at hchildren hevents hfault ⊢
  generalize n'.brood (n'.survey q.domain.actions).moves = b' at hchildren hevents hfault ⊢
  obtain ⟨children, events, fault?⟩ := b
  obtain ⟨children', events', fault?'⟩ := b'
  obtain rfl : events = events' := hevents
  have hlooked : (n.survey p.domain.actions).events n.state.length ++ events
      = (n'.survey q.domain.actions).events n'.state.length ++ events := by
    rw [h.facts hn, h.events hn]
  cases hfault with
  | some hfault => exact ⟨hlooked, .done (.error hfault)⟩
  | none =>
    have htaken : List.Forall₂ r (queue.pushAll (children.map Node.takeUp)).toList
        (queue'.pushAll (children'.map Node.takeUp)).toList := by
      rw [Queue.toList_pushAll, Queue.toList_pushAll]
      refine List.rel_append hqueue ?_
      rw [List.forall₂_map_left_iff, List.forall₂_map_right_iff]
      exact hchildren.imp fun _ _ => h.takeUp
    refine ⟨?_, .more ⟨htaken, ?_, ?_, rfl⟩⟩
    · simp only [hlooked, h.level hn, size_eq htaken]
    · simp only [hchildren.length_eq]
    · simp only [h.level hn]

lemma visit (h : InStep p q φ r) (limits : SearchLimits) (hn : r n n')
    (hqueue : List.Forall₂ r queue.toList queue'.toList) (stats : Stats) (limited : Bool) :
    (visit p limits n queue stats limited).1 = (visit q limits n' queue' stats limited).1 ∧
      Turn.Paired φ r (visit p limits n queue stats limited).2
        (visit q limits n' queue' stats limited).2 := by
  rw [Search.visit, Search.visit, ← h.level hn]
  by_cases hsat : n.state.Satisfies p.goal
  · rw [if_pos hsat, if_pos ((h.satisfies hn).mp hsat)]
    exact ⟨rfl, .done (.ok (.found hn _))⟩
  rw [if_neg hsat, if_neg (mt (h.satisfies hn).mpr hsat)]
  by_cases hcap : limits.caps n.level = true
  · rw [if_pos hcap, if_pos hcap]
    refine ⟨?_, .more ⟨hqueue, rfl, rfl, ?_⟩⟩
    · simp only [h.facts hn, h.events hn]
    · simp only [h.isEmpty_moves hn]
  rw [if_neg hcap, if_neg hcap]
  by_cases hspent : limits.spent stats.expanded = true
  · rw [if_pos hspent, if_pos hspent]
    exact ⟨rfl, .done (.ok (.exhausted _ _))⟩
  rw [if_neg hspent, if_neg hspent]
  exact h.expand hn hqueue stats limited

lemma step (h : InStep p q φ r) (limits : SearchLimits) (hs : s.Paired r s') :
    (step p limits s).1 = (step q limits s').1 ∧
      Turn.Paired φ r (step p limits s).2 (step q limits s').2 := by
  have hfrontier := hs.frontier
  cases hpop : s.frontier.pop? with
  | none =>
    have hempty : s'.frontier.toList = [] := by
      rw [Queue.pop?_eq_none_iff.mp hpop] at hfrontier
      exact List.forall₂_nil_left_iff.mp hfrontier
    rw [Search.step, Search.step, hpop, Queue.pop?_eq_none_iff.mpr hempty]
    simp only [finish, hs.stats, hs.limited, true_and]
    exact .done (.ok (.exhausted _ _))
  | some popped =>
    obtain ⟨n, queue⟩ := popped
    rw [Queue.toList_of_pop? hpop] at hfrontier
    cases hpop' : s'.frontier.pop? with
    | none =>
      rw [Queue.pop?_eq_none_iff.mp hpop'] at hfrontier
      simp at hfrontier
    | some popped' =>
      obtain ⟨n', queue'⟩ := popped'
      rw [Queue.toList_of_pop? hpop', List.forall₂_cons] at hfrontier
      obtain ⟨hn, hqueue⟩ := hfrontier
      obtain ⟨hevents, hturn⟩ := h.visit limits hn hqueue
        { s'.stats with depth := max s'.stats.depth n'.level } s'.limited
      rw [Search.step, Search.step, hpop, hpop']
      simp only [hs.stats, hs.limited, hs.level?, h.level hn, size_eq hqueue]
      exact ⟨by rw [hevents], hturn⟩

/-- Searches that go in step report the same and end alike, or neither of them ends. -/
theorem run (h : InStep p q φ r) (limits : SearchLimits) (hs : s.Paired r s') (fuel : ℕ)
    (log : Array Event) :
    (run p limits fuel s log).log = (run q limits fuel s' log).log ∧
      Option.Rel (EndAlike φ (Report.Paired r)) (run p limits fuel s log).verdict?
        (run q limits fuel s' log).verdict? := by
  induction fuel generalizing s s' log with
  | zero => exact ⟨rfl, .none⟩
  | succ fuel ih =>
    obtain ⟨hevents, hturn⟩ := h.step limits hs
    rw [Search.run, Search.run]
    generalize Search.step p limits s = t at hevents hturn ⊢
    generalize Search.step q limits s' = t' at hevents hturn ⊢
    obtain ⟨events, turn⟩ := t
    obtain ⟨events', turn'⟩ := t'
    obtain rfl : events = events' := hevents
    cases hturn with
    | more hnext => exact ih hnext _
    | done hverdict => exact ⟨rfl, .some hverdict⟩

end InStep

end Search

end ClassicalPlanning
