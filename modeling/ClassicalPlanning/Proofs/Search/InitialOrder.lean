/-
The order of the initial facts.

A state is a list, but what it says does not hang on the order of its facts.  A search does
look at the order: it decides which of several pairings of the same facts with the
preconditions of an action the matcher keeps.  Where the roles of facts do not matter this
makes no difference to what a search without limits finds, although the nodes come up in
another order: this is the main result, `search_of_perm`.  In a race it decides who can win
(`race_hangs_on_order`).
-/
import ClassicalPlanning.Proofs.Race
import ClassicalPlanning.Proofs.Search.Coherence
import ClassicalPlanning.Proofs.Search.Decision
import ClassicalPlanning.Proofs.Search.Likeness

namespace ClassicalPlanning

variable {p q : Problem} {limits : SearchLimits}

/-! ## Trees that are mirrored in each other

What a search finds is said by the levels of its tree and by the content of the nodes. -/

section Mirrored

variable (hlevel : limits.maxLevel = none) (hexpansions : limits.maxExpansions = none)
  (hgoal : q.goal = p.goal) (hto : p.MirroredIn q) (hfrom : q.MirroredIn p)
  (hp : ∀ n, p.HasNode n → n.Faultless p.domain.actions)
  (hq : ∀ n, q.HasNode n → n.Faultless q.domain.actions)

include hlevel hexpansions hgoal hto hfrom hp hq

lemma findsAt_of_mirroredIn {d : ℕ} (h : p.FindsAt limits d) : q.FindsAt limits d := by
  rw [findsAt_iff hlevel hexpansions hp] at h
  rw [findsAt_iff hlevel hexpansions hq, hgoal]
  obtain ⟨⟨n, hn, rfl, hsatisfies⟩, hleast⟩ := h
  obtain ⟨n', hn', hsame, hlike⟩ := hto n hn
  refine ⟨⟨n', hn', hsame, hlike.satisfies hsatisfies⟩, fun m' hm' hsatisfies' => ?_⟩
  obtain ⟨m, hm, hsame', hlike'⟩ := hfrom m' hm'
  exact hsame' ▸ hleast m hm (hlike'.satisfies hsatisfies')

omit hto in
lemma findsNone_of_mirroredIn (h : p.FindsNone limits) : q.FindsNone limits := by
  rw [findsNone_iff hlevel hexpansions hp] at h
  rw [findsNone_iff hlevel hexpansions hq, hgoal]
  obtain ⟨⟨k, hk⟩, hgoalless⟩ := h
  refine ⟨⟨k, fun n' hn' => ?_⟩, fun n' hn' hsatisfies => ?_⟩
  · obtain ⟨n, hn, hsame, -⟩ := hfrom n' hn'
    exact hsame ▸ hk n hn
  · obtain ⟨n, hn, -, hlike⟩ := hfrom n' hn'
    exact hgoalless n hn (hlike.satisfies hsatisfies)

end Mirrored

/-! ## Initial states in another order -/

lemma Problem.Coherent.of_perm {t : State} (h : p.Coherent) (hperm : p.state.Perm t) :
    Problem.Coherent { p with state := t } where
  wellTyped l hl := h.wellTyped l (hperm.mem_iff.mpr hl)
  actions := h.actions

/-- Where the roles of facts do not matter, searches without limits of a coherent problem end
in the same way from all orders of the initial facts. -/
theorem search_of_perm {t : State} (hlevel : limits.maxLevel = none)
    (hexpansions : limits.maxExpansions = none) (hcoherent : p.Coherent)
    (hneutral : ∀ n, p.HasNode n → n.Neutral p.domain.actions) (hperm : p.state.Perm t) :
    (∀ d, p.FindsAt limits d ↔ Problem.FindsAt { p with state := t } limits d) ∧
      (p.FindsNone limits ↔ Problem.FindsNone { p with state := t } limits) := by
  set q : Problem := { p with state := t }
  have hp : ∀ n, p.HasNode n → n.Faultless p.domain.actions := faultless_of_hasNode hcoherent
  have hq : ∀ n, q.HasNode n → n.Faultless q.domain.actions :=
    faultless_of_hasNode (hcoherent.of_perm hperm)
  have hcontent : SameContent p.state q.state := .of_perm hperm
  have hto : p.MirroredIn q := mirroredIn_of_neutral rfl hcontent hneutral hq
  have hfrom : q.MirroredIn p := mirroredIn_of_neutral_right rfl hcontent.symm hneutral hp
  have hgoal : q.goal = p.goal := rfl
  refine ⟨fun d => ⟨?_, ?_⟩, ?_, ?_⟩
  · exact findsAt_of_mirroredIn hlevel hexpansions hgoal hto hfrom hp hq
  · exact findsAt_of_mirroredIn hlevel hexpansions hgoal.symm hfrom hto hq hp
  · exact findsNone_of_mirroredIn hlevel hexpansions hgoal hfrom hp hq
  · exact findsNone_of_mirroredIn hlevel hexpansions hgoal.symm hto hq hp

/-- On a line of three places the walker needs two steps to the last place, and as many when
the facts are told in reverse. -/
theorem walk_search_of_perm : (Walk.problem ["a", "b", "c"] "c").FindsAt {} 2 ∧
    Problem.FindsAt { Walk.problem ["a", "b", "c"] "c" with
      state := (Walk.start ["a", "b", "c"]).reverse } {} 2 := by
  have hfinds : (Walk.problem ["a", "b", "c"] "c").FindsAt {} 2 := ⟨3, _, _, rfl, rfl, rfl⟩
  have hlevel : ({} : SearchLimits).maxLevel = none := rfl
  obtain ⟨hfound, -⟩ := search_of_perm hlevel rfl (Walk.coherent ["a", "b", "c"] "c")
    (fun n _ => neutral_of_nodup_heads (by decide) n)
    (List.reverse_perm (Walk.start ["a", "b", "c"])).symm
  exact ⟨hfinds, (hfound 2).mp hfinds⟩

/-! ## A race -/

lemma Race.coherent : Race.problem.Coherent where
  wellTyped := by
    simp [Race.problem, Race.fact, Race.runner, Race.free, Literal.WellTyped, Variable.WellTyped,
      Variable.free, Variable.fill]
  actions a ha := by
    obtain rfl := List.mem_singleton.mp ha
    refine ⟨?_, ?_, ?_⟩ <;> simp [Race.finish, Race.fact, Race.free, Variable.free,
      Literal.WellTyped, Variable.WellTyped]

/-- In a race the order of the facts decides who can win: the second of the runners cannot,
but if they are told in reverse it is the same runner who wins. -/
theorem race_hangs_on_order : Race.problem.Coherent ∧ (∀ l ∈ Race.problem.goal, l.WellTyped) ∧
    Race.problem.state.Perm Race.problem.state.reverse ∧
    (Race.problem.FindsNone {} ∧
      ¬ Problem.FindsNone { Race.problem with state := Race.problem.state.reverse } {}) ∧
    (¬ Race.problem.FindsAt {} 1 ∧
      Problem.FindsAt { Race.problem with state := Race.problem.state.reverse } {} 1) := by
  have hperm : Race.problem.state.Perm Race.problem.state.reverse :=
    (List.reverse_perm Race.problem.state).symm
  have hnone : Race.problem.FindsNone {} := ⟨3, _, rfl, rfl⟩
  have hfinds : Problem.FindsAt { Race.problem with state := Race.problem.state.reverse } {} 1 :=
    ⟨3, _, _, rfl, rfl, rfl⟩
  have hp := faultless_of_hasNode Race.coherent
  have hq := faultless_of_hasNode (Race.coherent.of_perm hperm)
  refine ⟨Race.coherent, ?_, hperm, ⟨hnone, fun hnone' => ?_⟩, fun hfinds' => ?_, hfinds⟩
  · simp [Race.problem, Race.fact, Race.runner, Race.free, Literal.WellTyped, Variable.WellTyped,
      Variable.free, Variable.fill]
  · obtain ⟨⟨n, hn, -, hgoal⟩, -⟩ := (findsAt_iff rfl rfl hq).mp hfinds
    exact ((findsNone_iff rfl rfl hq).mp hnone').2 n hn hgoal
  · obtain ⟨⟨n, hn, -, hgoal⟩, -⟩ := (findsAt_iff rfl rfl hp).mp hfinds'
    exact ((findsNone_iff rfl rfl hp).mp hnone).2 n hn hgoal

end ClassicalPlanning
