/-
The course of a run.

A run goes through one search in each of its turns, and `Search.course` lists them, the oldest
first.  All that a run does can be read off this list: the nodes that it takes up
(`Problem.visited`), those of them that it expands (`Problem.expanded`), the nodes that it creates
(`Problem.created`), and the events that it reports (`log_search`).

`Search.Passed` looks at a course from its end: a search comes up after the turns of certain
others.  What holds of every search that comes up is shown by induction on it, and
`exists_passed_of_search?` and `exists_passed_of_search?_eq_none` carry this over to the runs, those
that end and those that are out of fuel.
-/
import ClassicalPlanning.Search.BreadthFirst
import Mathlib.Data.Nat.Notation
import Mathlib.Tactic.Lemma

namespace ClassicalPlanning

namespace Search

/-- The node that is taken up in the next turn. -/
def next? (s : Search) : Option Node :=
  s.frontier.toList.head?

/-- The node that is expanded in the next turn. -/
def expands? (p : Problem) (limits : SearchLimits) (s : Search) : Option Node :=
  s.next?.filter fun n =>
    ¬ n.state.Satisfies p.goal ∧ ¬ limits.caps n.level ∧ ¬ limits.spent s.stats.expanded

/-- The searches that a run of at most `fuel` turns goes through, one for each turn. -/
def course (p : Problem) (limits : SearchLimits) : ℕ → Search → List Search
  | 0, _ => []
  | fuel + 1, s =>
    match (step p limits s).2 with
    | .more next => s :: course p limits fuel next
    | .done _ => [s]

/-- In the course of the search of the problem, `s` comes up after the turns of the searches
`before`. -/
inductive Passed (p : Problem) (limits : SearchLimits) : List Search → Search → Prop
  /-- At the start there has been no turn. -/
  | start : Passed p limits [] (.start p)
  /-- A turn has not ended the search. -/
  | turn {before : List Search} {s next : Search} (h : Passed p limits before s)
      (hstep : (step p limits s).2 = .more next) : Passed p limits (before ++ [s]) next

/-- What is read off a course that is longer by one turn. -/
lemma filterMap_concat {α β : Type} (f : α → Option β) (l : List α) (a : α) :
    (l ++ [a]).filterMap f = l.filterMap f ++ (f a).toList := by
  cases hf : f a <;> simp [hf]

variable {p : Problem} {limits : SearchLimits} {s next : Search} {v : Except Fault Report}
  {fuel : ℕ} {log : Array Event}

/-! ## Single turns -/

lemma run_of_more (h : (step p limits s).2 = .more next) :
    run p limits (fuel + 1) s log = run p limits fuel next (log ++ (step p limits s).1) := by
  rcases hstep : step p limits s with ⟨events, turn⟩
  obtain rfl : turn = .more next := by simpa [hstep] using h
  simp [run, hstep]

lemma run_of_done (h : (step p limits s).2 = .done v) :
    run p limits (fuel + 1) s log =
      { verdict? := some v, log := log ++ (step p limits s).1 } := by
  rcases hstep : step p limits s with ⟨events, turn⟩
  obtain rfl : turn = .done v := by simpa [hstep] using h
  simp [run, hstep]

lemma verdict?_run_of_more (h : (step p limits s).2 = .more next) (fuel : ℕ) (log : Array Event) :
    (run p limits (fuel + 1) s log).verdict? =
      (run p limits fuel next (log ++ (step p limits s).1)).verdict? := by
  rw [run_of_more h]

lemma verdict?_run_of_done (h : (step p limits s).2 = .done v) (fuel : ℕ) (log : Array Event) :
    (run p limits (fuel + 1) s log).verdict? = some v := by
  rw [run_of_done h]

lemma course_of_more (h : (step p limits s).2 = .more next) :
    course p limits (fuel + 1) s = s :: course p limits fuel next := by
  rw [course, h]

lemma course_of_done (h : (step p limits s).2 = .done v) : course p limits (fuel + 1) s = [s] := by
  rw [course, h]

/-! ## Whole runs -/

/-- A run reports what the turns of its course give rise to. -/
lemma log_run (fuel : ℕ) (s : Search) (log : Array Event) :
    (run p limits fuel s log).log.toList =
      log.toList ++ (course p limits fuel s).flatMap fun s => (step p limits s).1 := by
  induction fuel generalizing s log with
  | zero => simp [run, course]
  | succ fuel ih =>
    cases hstep : (step p limits s).2 with
    | more next => simp [run_of_more hstep, course_of_more hstep, ih]
    | done v => simp [run_of_done hstep, course_of_done hstep]

/-- A run ends in the last turn of its course, or it takes all the turns that it is given. -/
lemma Passed.exists_run {before : List Search} (h : Passed p limits before s) (fuel : ℕ)
    (log : Array Event) :
    ∃ rest last, Passed p limits (before ++ rest) last ∧
      ((∃ v, (run p limits fuel s log).verdict? = some v ∧ (step p limits last).2 = .done v ∧
          course p limits fuel s = rest ++ [last]) ∨
        (run p limits fuel s log).verdict? = none ∧ course p limits fuel s = rest ∧
          rest.length = fuel) := by
  induction fuel generalizing before s log with
  | zero => exact ⟨[], s, by simpa using h, Or.inr ⟨rfl, rfl, rfl⟩⟩
  | succ fuel ih =>
    cases hstep : (step p limits s).2 with
    | done v =>
      exact ⟨[], s, by simpa using h,
        Or.inl ⟨v, verdict?_run_of_done hstep fuel log, hstep, course_of_done hstep⟩⟩
    | more next =>
      obtain ⟨rest, last, hlast, hend⟩ := ih (h.turn hstep) (log ++ (step p limits s).1)
      refine ⟨s :: rest, last, by simpa using hlast, ?_⟩
      rw [verdict?_run_of_more hstep, course_of_more hstep]
      rcases hend with ⟨v, hv, hdone, hcourse⟩ | ⟨hv, hcourse, hlength⟩
      · exact Or.inl ⟨v, hv, hdone, by rw [hcourse, List.cons_append]⟩
      · exact Or.inr ⟨hv, by rw [hcourse], by rw [List.length_cons, hlength]⟩

end Search

/-! ## Searches of a problem -/

namespace Problem

/-- The searches that the search of a problem goes through. -/
def course (p : Problem) (limits : SearchLimits) (fuel : ℕ) : List Search :=
  Search.course p limits fuel (.start p)

/-- The nodes that a search takes up, in this order. -/
def visited (p : Problem) (limits : SearchLimits) (fuel : ℕ) : List Node :=
  (p.course limits fuel).filterMap Search.next?

/-- The nodes that a search expands, in this order; one whose expansion meets a fault is
counted. -/
def expanded (p : Problem) (limits : SearchLimits) (fuel : ℕ) : List Node :=
  (p.course limits fuel).filterMap (Search.expands? p limits)

/-- The nodes that a search creates: the root and the children of the nodes that it expands, up
to the fault if there is one. -/
def created (p : Problem) (limits : SearchLimits) (fuel : ℕ) : List Node :=
  Node.root p ::
    (p.expanded limits fuel).flatMap fun n => (n.brood (n.survey p.domain.actions).moves).children

/-- The search ends. -/
def Terminates (p : Problem) (limits : SearchLimits) : Prop :=
  ∃ fuel v, p.search? limits fuel = some v

end Problem

open Search

variable {p : Problem} {limits : SearchLimits} {fuel : ℕ}

lemma log_search : (p.search limits fuel).log.toList =
    (p.course limits fuel).flatMap fun s => (step p limits s).1 :=
  log_run fuel (.start p) #[]

lemma exists_passed_of_search? {v : Except Fault Report} (h : p.search? limits fuel = some v) :
    ∃ before s, Passed p limits before s ∧ (step p limits s).2 = .done v ∧
      p.course limits fuel = before ++ [s] := by
  obtain ⟨before, s, hpassed, ⟨w, hw, hdone, hcourse⟩ | ⟨hnone, -⟩⟩ :=
    (Passed.start : Passed p limits [] (.start p)).exists_run fuel #[]
  · obtain rfl : w = v := Option.some.inj (hw.symm.trans h)
    exact ⟨before, s, hpassed, hdone, hcourse⟩
  · exact absurd (hnone.symm.trans h) (by simp)

lemma exists_passed_of_search?_eq_none (h : p.search? limits fuel = none) :
    ∃ before s, Passed p limits before s ∧ p.course limits fuel = before ∧
      before.length = fuel := by
  obtain ⟨before, s, hpassed, ⟨w, hw, -⟩ | ⟨-, hcourse, hlength⟩⟩ :=
    (Passed.start : Passed p limits [] (.start p)).exists_run fuel #[]
  · exact absurd (hw.symm.trans h) (by simp)
  · exact ⟨before, s, hpassed, hcourse, hlength⟩

/-- In each turn of a run but the last, the search goes on. -/
lemma exists_passed_course (p : Problem) (limits : SearchLimits) (fuel : ℕ) :
    ∃ before s, Passed p limits before s ∧
      (p.course limits fuel = before ++ [s] ∨ p.course limits fuel = before) := by
  cases h : p.search? limits fuel with
  | none =>
    obtain ⟨before, s, hpassed, hcourse, -⟩ := exists_passed_of_search?_eq_none h
    exact ⟨before, s, hpassed, .inr hcourse⟩
  | some v =>
    obtain ⟨before, s, hpassed, -, hcourse⟩ := exists_passed_of_search? h
    exact ⟨before, s, hpassed, .inl hcourse⟩

end ClassicalPlanning
