/-
Searches that come to an end.

A search takes up another node in each of its turns, so it ends if it sees only so many nodes.  Of
these there are three bounds.

* A level cap leaves a tree that has no tiers below the cap, and each of its tiers is finite.
* A limit on expansions, where there is no cap, is a limit on the nodes taken up, since every one
  of them but the last is expanded.
* Where every action adds less than it takes, a node has one fact less for each of its moves, so
  its level is at most the number of the initial facts.

The main result is `search_terminates`.
-/
import ClassicalPlanning.Proofs.Search.Admission
import ClassicalPlanning.Proofs.Search.Tally

namespace ClassicalPlanning

open Search

variable {p : Problem} {limits : SearchLimits}

/-! ## Limits -/

lemma terminates_of_maxLevel {m : ℕ} (hm : limits.maxLevel = some m) : p.Terminates limits :=
  terminates_of_tier_eq_nil fun _ hj => tier_offspring_eq_nil hm hj

lemma terminates_of_maxExpansions {e : ℕ} (hlevel : limits.maxLevel = none)
    (he : limits.maxExpansions = some e) : p.Terminates limits := by
  refine ⟨e + 1, ?_⟩
  cases hv : p.search? limits (e + 1) with
  | some v => exact ⟨v, rfl⟩
  | none =>
    obtain ⟨before, s, hpassed, -, hlength⟩ := exists_passed_of_search?_eq_none hv
    have htallied := hpassed.tallied
    -- Without a cap all nodes taken up have been expanded.
    have hall : before.filterMap (expands? p limits) = before.filterMap next? := by
      rw [htallied.expanded_eq, List.filter_eq_self]
      simp [SearchLimits.caps_eq_false hlevel]
    have hle := htallied.expanded_le e he
    rw [htallied.expanded_count, hall, hpassed.after.2, hlength] at hle
    omega

/-! ## Actions that add less than they take -/

/-- What a grounding takes out of the state are as many facts as there are preconditions. -/
lemma length_state_of_apply {actions : List Action} {n child : Node} {m : Move}
    (hm : m ∈ (n.survey actions).moves) (h : n.apply m = .ok child) :
    child.state.length + m.action.preconditions.length =
      n.state.length + m.action.effects.length := by
  have hlength := (of_mem_groundings (mem_moves_survey.mp hm).2).1
  rw [← hlength]
  exact (fits_of_apply h).2.2

section Shrinking

variable (hshrink : ∀ a ∈ p.domain.actions, a.effects.length < a.preconditions.length)

include hshrink

/-- A node has lost a fact in each of its moves. -/
lemma level_add_length_state_le : ∀ n, p.HasNode n → n.level + n.state.length ≤ p.state.length := by
  refine forall_hasNode (Nat.zero_add _).le ?_
  intro n _ hle child hchild
  have hlevel := level_of_mem_children hchild
  obtain ⟨m, hm, next, hnext, rfl⟩ := mem_children.mp hchild
  have hlength : next.state.length + m.action.preconditions.length =
      n.state.length + m.action.effects.length := length_state_of_apply hm hnext
  have hless := hshrink m.action (mem_moves_survey.mp hm).1
  have hstate : next.takeUp.state.length = next.state.length := rfl
  omega

lemma terminates_of_shrinking : p.Terminates limits := by
  have hlevel : ∀ n, p.HasNode n → n.level < p.state.length + 1 := by
    intro n hn
    have hle := level_add_length_state_le hshrink n hn
    omega
  exact terminates_of_tier_eq_nil fun _ hj => tier_offspring_eq_nil_of_level_lt hlevel hj

end Shrinking

/-- A search under a level cap or a limit on expansions ends, and it never expands more nodes
than the limit allows.  Where every action has fewer effects than preconditions, a search ends
under any limits, and under none, and no node that it creates is deeper than the number of the
initial facts. -/
theorem search_terminates (p : Problem) (limits : SearchLimits) :
    (limits.maxLevel ≠ none ∨ limits.maxExpansions ≠ none → p.Terminates limits) ∧
    (∀ e, limits.maxExpansions = some e → ∀ fuel, (p.expanded limits fuel).length ≤ e) ∧
    ((∀ a ∈ p.domain.actions, a.effects.length < a.preconditions.length) →
      p.Terminates limits ∧
        ∀ fuel, ∀ n ∈ p.created limits fuel, n.level ≤ p.state.length) := by
  refine ⟨fun hlimited => ?_, fun e he => length_expanded_le he, fun hshrink => ⟨?_, ?_⟩⟩
  · cases hlevel : limits.maxLevel with
    | some m => exact terminates_of_maxLevel hlevel
    | none =>
      obtain ⟨e, he⟩ := Option.ne_none_iff_exists'.mp (hlimited.resolve_left (· hlevel))
      exact terminates_of_maxExpansions hlevel he
  · exact terminates_of_shrinking hshrink
  · intro fuel n hn
    have hle := level_add_length_state_le hshrink _ (hasNode_of_mem_created hn)
    rw [Node.level_takeUp] at hle
    omega

/-- Whoever may stay has somewhere to go for ever, and yet a search for a place that is not there
ends under a level cap, and also when only seven nodes may be expanded.  A race of two runners is
over after at most two moves. -/
theorem stroll_terminates :
    (Walk.stroll ["a", "b", "c"] "z").Terminates { maxLevel := some 5 } ∧
    (Walk.stroll ["a", "b", "c"] "z").Terminates { maxExpansions := some 7 } ∧
    (∀ fuel, ((Walk.stroll ["a", "b", "c"] "z").expanded
      { maxExpansions := some 7 } fuel).length ≤ 7) ∧
    Race.problem.Terminates {} ∧ ∀ fuel, ∀ n ∈ Race.problem.created {} fuel, n.level ≤ 2 := by
  obtain ⟨hcapped, -, -⟩ :=
    search_terminates (Walk.stroll ["a", "b", "c"] "z") { maxLevel := some 5 }
  obtain ⟨hends, hle, -⟩ :=
    search_terminates (Walk.stroll ["a", "b", "c"] "z") { maxExpansions := some 7 }
  obtain ⟨-, -, hshrinks⟩ := search_terminates Race.problem {}
  exact ⟨hcapped (by simp), hends (by simp), hle 7 rfl, hshrinks (by decide)⟩

end ClassicalPlanning
