/-
The command never says that there is no plan.

The problems of the command are endless, so its searches end with a plan or at a limit, and
what is left of a run has other outcomes.  What a run does with files is up to the monad that
it runs in; that its outcome is as described, whatever it reads there, is said by `Ensures`.

The main result is `search_ends_at_goal_or_limit`.
-/
import ClassicalPlanning.CommandLine.Execution
import ClassicalPlanning.Proofs.CraneYard.Endless

namespace ClassicalPlanning

/-- Whatever comes of the computation satisfies the predicate: it can be carried out with such
results only. -/
def Ensures {m : Type → Type} [Functor m] {α : Type} (q : α → Prop) (x : m α) : Prop :=
  ∃ x' : m { a // q a }, Subtype.val <$> x' = x

section Ensures

variable {m : Type → Type} [Monad m] [LawfulMonad m] {α β : Type} {q : α → Prop}

lemma ensures_pure {a : α} (h : q a) : Ensures q (pure a : m α) :=
  ⟨pure ⟨a, h⟩, by simp⟩

lemma ensures_bind {x : m β} {f : β → m α} (h : ∀ b, Ensures q (f b)) : Ensures q (x >>= f) := by
  choose f' hf' using h
  exact ⟨x >>= f', by simp [hf']⟩

lemma ensures_bind_of_ensures {r : β → Prop} {x : m β} {f : β → m α} (hx : Ensures r x)
    (h : ∀ b, r b → Ensures q (f b)) : Ensures q (x >>= f) := by
  obtain ⟨x', rfl⟩ := hx
  choose f' hf' using h
  exact ⟨x' >>= fun b => f' b b.2, by simp [hf']⟩

end Ensures

namespace CommandLine

open CraneYard

/-- The outcome is not that of a search that has looked at everything. -/
def Outcome.Hopeful (outcome? : Option Outcome) : Prop :=
  ∀ goal stats, outcome? ≠ some (exhaustionOutcome goal stats .noPlan)

lemma hopeful_of_exitCode {outcome : Outcome} (h : outcome.exitCode ≠ 1) :
    Outcome.Hopeful (some outcome) := by
  rintro goal stats heq
  obtain rfl := Option.some.inj heq
  exact h rfl

lemma hopeful_limitReached (goal : Goal) (stats : Search.Stats) :
    Outcome.Hopeful (some (exhaustionOutcome goal stats .limitReached)) := by
  have hcode : (exhaustionOutcome goal stats .limitReached).exitCode ≠ 1 := by
    show (2 : UInt32) ≠ 1
    decide
  exact hopeful_of_exitCode hcode

/-- A run that cannot be carried through has a remark, and one without a plan has none. -/
lemma hopeful_failure (remark : String) : Outcome.Hopeful (some (.failure remark)) := by
  rintro goal stats heq
  have hremark := congrArg Outcome.remark (Option.some.inj heq)
  simp [Outcome.failure, exhaustionOutcome] at hremark

section Runs

variable {m : Type → Type} [Monad m] [LawfulMonad m] [FileAccess m]

lemma ensures_deliver (o : Options) (plan : Plan) :
    Ensures (fun outcome => Outcome.Hopeful (some outcome)) (deliver o plan : m Outcome) := by
  unfold deliver
  cases o.planOut with
  | none => exact ensures_pure (hopeful_of_exitCode (show (0 : UInt32) ≠ 1 by decide))
  | some file =>
    refine ensures_bind fun written => ?_
    cases written with
    | true => exact ensures_pure (hopeful_of_exitCode (show (0 : UInt32) ≠ 1 by decide))
    | false => exact ensures_pure (hopeful_failure _)

lemma ensures_searchAndDeliver (o : Options) {p : Problem} (hp : p.EndsAtGoalOrLimit)
    (limits : SearchLimits) (fuel : ℕ) :
    Ensures Outcome.Hopeful (searchAndDeliver o p limits fuel : m (Option Outcome)) := by
  unfold searchAndDeliver
  cases hsearch : p.search? limits fuel with
  | none => exact ensures_pure (by simp [Outcome.Hopeful])
  | some verdict =>
    obtain ⟨⟨outcome, stats⟩, rfl, ⟨node, rfl⟩ | rfl⟩ := hp limits fuel verdict hsearch
    · exact ensures_bind_of_ensures (ensures_deliver o node.plan) fun _ => ensures_pure
    · exact ensures_pure (hopeful_limitReached o.goal stats)

lemma ensures_searchWithin (o : Options) {p : Problem} (hp : p.EndsAtGoalOrLimit)
    (limits? : Except SettingsFault SearchLimits) (fuel : ℕ) :
    Ensures Outcome.Hopeful (match limits? with
      | .error f => pure (some (.settingsFault f))
      | .ok limits => searchAndDeliver o p limits fuel : m (Option Outcome)) := by
  cases limits? with
  | error f => exact ensures_pure (hopeful_failure _)
  | ok limits => exact ensures_searchAndDeliver o hp limits fuel

lemma ensures_execute (env : Environment) (fuel : ℕ) (o : Options) :
    Ensures Outcome.Hopeful (execute env fuel o : m (Option Outcome)) := by
  obtain ⟨p, hp, -⟩ := exists_problem o.goal
  have hends : p.EndsAtGoalOrLimit := search_of_endless (endless_of_problem hp)
  unfold execute
  rw [hp]
  refine ensures_bind fun written => ?_
  cases written with
  | false => exact ensures_pure (hopeful_failure _)
  | true =>
    refine ensures_bind fun written => ?_
    cases written with
    | false => exact ensures_pure (hopeful_failure _)
    | true =>
      cases hlist : o.listActions with
      | true => exact ensures_pure (hopeful_of_exitCode (show (0 : UInt32) ≠ 1 by decide))
      | false =>
        -- Whether there is a settings file to be read makes no difference.
        cases o.config <;>
          exact ensures_bind fun config? =>
            ensures_searchWithin (m := m) o hends (o.limits config? env) fuel

lemma ensures_run (env : Environment) (fuel : ℕ) (words : List String) :
    Ensures Outcome.Hopeful (run env fuel words : m (Option Outcome)) := by
  unfold run
  cases request words with
  | error fault => exact ensures_pure (hopeful_of_exitCode (by decide))
  | ok request =>
    cases request with
    | version => exact ensures_pure (hopeful_of_exitCode (by decide))
    | help => exact ensures_pure (hopeful_of_exitCode (by decide))
    | run o => exact ensures_execute env fuel o

end Runs

end CommandLine

namespace CraneYard

/-- A search in a crane yard with an arm, a stack and a container never reports that there is
no plan, and it has no fault: it ends with a goal node or at a limit.  This is so for every
layout, every goal and all limits, in particular for the problems of the command; and no run
of the command, whatever it finds in its files and in its environment, ends by saying that no
plan exists. -/
theorem search_ends_at_goal_or_limit :
    (∀ (y : Yard) (l : Layout y) (p : Problem), y.armNames ≠ [] → y.stackNames ≠ [] →
      y.containerNames ≠ [] → p.domain = domain → l.EncodedBy p.state → p.EndsAtGoalOrLimit) ∧
    (∀ goal, ∃ p, problem goal = .ok p ∧ p.EndsAtGoalOrLimit) ∧
    ∀ (m : Type → Type) [Monad m] [LawfulMonad m] [CommandLine.FileAccess m]
      (env : Environment) (fuel : ℕ) (words : List String),
      Ensures CommandLine.Outcome.Hopeful (CommandLine.run env fuel words : m _) := by
  refine ⟨fun y l p harms hstacks hcontainers hdomain h => ?_, fun goal => ?_, ?_⟩
  · exact search_of_endless (endless_of_encodedBy harms hstacks hcontainers hdomain h)
  · obtain ⟨p, hp, -⟩ := exists_problem goal
    exact ⟨p, hp, search_of_endless (endless_of_problem hp)⟩
  · intro m _ _ _ env fuel words
    exact CommandLine.ensures_run env fuel words

/-- Down to the first level the yard is searched in six turns.  The goal is two moves away, so
the limit is met. -/
theorem topOfP2_ends_at_goal_or_limit : ∃ p, problem .topOfP2 = .ok p ∧ p.domain = domain ∧
    startLayout.EncodedBy p.state ∧
    ∃ report, p.search? { maxLevel := some 1 } 6 = some (.ok report) ∧
      ((∃ node, report.outcome = .found node) ∨ report.outcome = .exhausted .limitReached) := by
  have hends : ((problem .topOfP2).toOption.any fun p =>
      (p.search? { maxLevel := some 1 } 6).isSome) = true := by
    decide +kernel
  obtain ⟨p', hp', hsearch⟩ := exists_of_any_toOption hends
  obtain ⟨p, hp, hdomain, hencoded⟩ := exists_problem .topOfP2
  obtain rfl : p' = p := Except.ok.inj (hp'.symm.trans hp)
  obtain ⟨verdict, hverdict⟩ := Option.isSome_iff_exists.mp hsearch
  obtain ⟨report, rfl, houtcome⟩ := search_ends_at_goal_or_limit.1 startYard startLayout p'
    (by decide) (by decide) (by decide) hdomain hencoded _ _ verdict hverdict
  exact ⟨p', hp', hdomain, hencoded, report, hverdict, houtcome⟩

end CraneYard

end ClassicalPlanning
