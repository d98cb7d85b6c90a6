/-
The groundings in a state, one for each set of places.

A state of `n` facts offers as many candidates to an action of `k` preconditions as there are ways
to choose `k` places out of `n`.  Places are chosen in ascending order, and choices are ordered
lexicographically.  A choice of places serves the action if its facts can be assigned to the
preconditions, each to one, such that under one substitution each precondition becomes its fact
(`Action.ServedAt`).  The groundings in the state are then in step with the choices that serve:
each of these has one grounding, made of its facts, and there are no others.

That the matcher agrees with this is known for one candidate: it arranges the facts if they can be
arranged (`exists_arrange?`), and a match in step is a solution (`unifyAll_findsLeast`).  What
remains is to follow the places through the enumeration of the candidates.

The main result is `groundings_exact`.
-/
import ClassicalPlanning.Proofs.Matching.FirstArrangement
import ClassicalPlanning.Proofs.Matching.Solution
import ClassicalPlanning.Search.Node
import Mathlib.Data.List.NodupEquivFin

namespace ClassicalPlanning

lemma forall₂_filter_filterMap {α β : Type} (f : α → Option β) (l : List α) :
    List.Forall₂ (fun a b => f a = some b) (l.filter fun a => (f a).isSome) (l.filterMap f) := by
  induction l with
  | nil => exact .nil
  | cons a l ih =>
    cases ha : f a with
    | none => simpa [ha] using ih
    | some b => simpa [ha] using ih

/-! ## Choices that serve an action -/

/-- The facts at the places can be assigned to the preconditions of the action, one to each, such
that under one substitution every precondition becomes its fact. -/
def Action.ServedAt (a : Action) (s : State) (is : List (Fin s.length)) : Prop :=
  ∃ (place : Fin a.preconditions.length ≃ {i // i ∈ is}) (θ : Substitution),
    ∀ j, θ.Instantiates a.name (a.preconditions.get j) (s.get (place j))

section Served

variable {a : Action} {s : State} {is js : List (Fin s.length)} {g : Grounding}

/-- An assignment of the places to the preconditions puts the places in an order. -/
lemma Action.ServedAt.exists_solves (his : is.Nodup) (h : a.ServedAt s is) :
    ∃ js : List (Fin s.length), js.Perm is ∧ ∃ θ : Substitution,
      θ.Solves a.name a.preconditions (js.map s.get) := by
  obtain ⟨place, θ, hθ⟩ := h
  refine ⟨(List.finRange _).map fun j => (place j).1, ?_, θ, ?_⟩
  · have hnodup : ((List.finRange _).map fun j => (place j).1).Nodup :=
      (List.nodup_finRange _).map (Subtype.val_injective.comp place.injective)
    refine (List.perm_ext_iff_of_nodup hnodup his).mpr fun i => ?_
    simp only [List.mem_map, List.mem_finRange, true_and]
    constructor
    · rintro ⟨j, rfl⟩
      exact (place j).2
    · intro hi
      exact ⟨place.symm ⟨i, hi⟩, by simp⟩
  · have hsolves : θ.Solves a.name ((List.finRange _).map a.preconditions.get)
        (((List.finRange _).map fun j => (place j).1).map s.get) := by
      rw [Substitution.Solves, List.map_map, List.forall₂_map_left_iff,
        List.forall₂_map_right_iff, List.forall₂_same]
      exact fun j _ => hθ j
    rwa [List.map_get_finRange] at hsolves

/-- An order of the places assigns them to the preconditions. -/
lemma servedAt_of_solves (his : is.Nodup) (hperm : js.Perm is) {θ : Substitution}
    (hθ : θ.Solves a.name a.preconditions (js.map s.get)) : a.ServedAt s is := by
  obtain ⟨hlength, hget⟩ := List.forall₂_iff_get.mp hθ
  rw [List.length_map] at hlength
  have hjs : js.Nodup := hperm.nodup_iff.mpr his
  let place : Fin a.preconditions.length ≃ {i // i ∈ is} :=
    (finCongr hlength).trans
      ((List.Nodup.getEquiv js hjs).trans (Equiv.subtypeEquivRight fun _ => hperm.mem_iff))
  refine ⟨place, θ, fun j => ?_⟩
  have hplace : ((js.map s.get).get ⟨j, by rw [List.length_map, ← hlength]; exact j.2⟩) =
      s.get (place j) := List.getElem_map s.get
  rw [← hplace]
  exact hget j j.2 _

/-- A candidate has a grounding just if its places serve the action. -/
lemma isSome_groundingOf?_iff (htypes : TypedByName a.preconditions) (hs : ∀ l ∈ s, l.WellTyped)
    (his : is.Pairwise (· < ·)) (hlength : is.length = a.preconditions.length) :
    (a.groundingOf? (is.map s.get)).isSome ↔ a.ServedAt s is := by
  rw [Option.isSome_iff_exists]
  have hleast : ∀ js : List (Fin s.length), js.Perm is →
      FindsLeast (unifyAll a.preconditions (js.map s.get))
        {θ | θ.Solves a.name a.preconditions (js.map s.get)} := by
    intro js hjs
    refine unifyAll_findsLeast a.name ?_ htypes fun l hl => ?_
    · rw [List.length_map, hjs.length_eq, hlength]
    · obtain ⟨i, -, rfl⟩ := List.mem_map.mp hl
      exact hs _ (List.get_mem s i)
  constructor
  · rintro ⟨g, hg⟩
    obtain ⟨js, ⟨⟨hperm, σ, hσ⟩, -⟩, -⟩ := exists_isLeast_of_groundingOf? his hlength hg
    exact servedAt_of_solves his.nodup hperm ((hleast js hperm).isLeast σ hσ).1
  · intro h
    obtain ⟨js, hperm, θ, hθ⟩ := h.exists_solves his.nodup
    obtain ⟨σ, hσ⟩ := (hleast js hperm).exists_iff.mpr ⟨θ, hθ⟩
    exact exists_groundingOf?_of_matchesAt hlength ⟨hperm, σ, hσ⟩

/-- A grounding of a candidate has its facts, and they solve the match of the preconditions. -/
lemma of_groundingOf? {facts : List Literal} (htypes : TypedByName a.preconditions)
    (hfacts : ∀ l ∈ facts, l.WellTyped) (hg : a.groundingOf? facts = some g) :
    g.matched.length = a.preconditions.length ∧ g.matched.Perm facts ∧
      ∃ θ : Substitution, θ.Solves a.name a.preconditions g.matched := by
  by_cases hlength : facts.length = a.preconditions.length
  · have harrange := (groundingOf?_eq_some_iff hlength).mp hg
    obtain ⟨hlength', -, σ, hσ⟩ := arrange?_eq_some harrange
    have hperm := perm_of_arrange? hlength harrange
    have hleast := unifyAll_findsLeast a.name hlength' htypes fun l hl =>
      hfacts l (hperm.subset hl)
    exact ⟨hlength', hperm, σ, (hleast.isLeast σ hσ).1⟩
  · simp [groundingOf?_eq_none hlength] at hg

end Served

section Exactness

variable {a : Action} {s : State}

/-- The candidates are the facts at the choices of places. -/
lemma candidates_eq_map (a : Action) (s : State) : a.candidates s =
    (combinations a.preconditions.length (List.finRange s.length)).map (List.map s.get) := by
  rw [Action.candidates, ← combinations_map, List.map_get_finRange]

/-- **The groundings are exact.**  The candidates are as many as there are ways to choose a fact
for each precondition, and as many are reported.  The groundings are in step with the choices of
places that serve the action, in lexicographic order: each of these choices has one grounding, whose
facts are those at the places and solve the match of the preconditions, and no other choice has
any. -/
theorem groundings_exact (htypes : TypedByName a.preconditions) (hs : ∀ l ∈ s, l.WellTyped) :
    a.groundings s = (a.candidates s).filterMap a.groundingOf? ∧
    (a.candidates s).length = s.length.choose a.preconditions.length ∧
    Survey.events s.length [(a, a.groundings s)] = [.grounded a.name
      (s.length.choose a.preconditions.length) (a.groundings s).length] ∧
    ∃ choices : List (List (Fin s.length)), choices.Pairwise (· < ·) ∧
      (∀ is, is ∈ choices ↔
        is.Pairwise (· < ·) ∧ is.length = a.preconditions.length ∧ a.ServedAt s is) ∧
      List.Forall₂ (fun is g => g.matched.length = a.preconditions.length ∧
        g.matched.Perm (is.map s.get) ∧
        ∃ θ : Substitution, θ.Solves a.name a.preconditions g.matched)
        choices (a.groundings s) := by
  refine ⟨a.groundings_eq_filterMap s, length_combinations _ _, by
    simp [Survey.events, binomial_eq_choose], ?_⟩
  have hgroundings : a.groundings s =
      (combinations a.preconditions.length (List.finRange s.length)).filterMap
        fun is => a.groundingOf? (is.map s.get) := by
    rw [a.groundings_eq_filterMap, candidates_eq_map, List.filterMap_map]
    rfl
  refine ⟨(combinations a.preconditions.length (List.finRange s.length)).filter
    fun is => (a.groundingOf? (is.map s.get)).isSome, ?_, fun is => ?_, ?_⟩
  · exact (pairwise_lt_combinations (List.pairwise_lt_finRange _) _).filter _
  · rw [List.mem_filter, mem_combinations_finRange, and_assoc]
    refine and_congr_right fun his => and_congr_right fun hlength => ?_
    exact isSome_groundingOf?_iff htypes hs his hlength
  · rw [hgroundings]
    have hstep := forall₂_filter_filterMap (fun is => a.groundingOf? (is.map s.get))
      (combinations a.preconditions.length (List.finRange s.length))
    refine hstep.imp fun is g hg => of_groundingOf? htypes (fun l hl => ?_) hg
    obtain ⟨i, -, rfl⟩ := List.mem_map.mp hl
    exact hs _ (List.get_mem s i)

end Exactness

/-- A link that stands twice in a state gives two groundings, and one whose end is open gives
none. -/
theorem walk_groundings_exact :
    let s := [Walk.here (Walk.place "a"), Walk.link (Walk.place "a") (Walk.place "b"),
      Walk.link (Walk.place "a") (Walk.free "?y"), Walk.link (Walk.place "a") (Walk.place "b")]
    TypedByName Walk.step.preconditions ∧ (∀ l ∈ s, l.WellTyped) ∧
    (Walk.step.candidates s).length = 6 ∧
    ∃ choices : List (List (Fin 4)), choices.length = 2 ∧ choices.Pairwise (· < ·) ∧
      (∀ is, is ∈ choices ↔
        is.Pairwise (· < ·) ∧ is.length = 2 ∧ Walk.step.ServedAt s is) ∧
      List.Forall₂ (fun is g => g.matched.length = 2 ∧ g.matched.Perm (is.map s.get) ∧
        ∃ θ : Substitution, θ.Solves "step" Walk.step.preconditions g.matched)
        choices (Walk.step.groundings s) := by
  intro s
  have htypes : TypedByName Walk.step.preconditions := by decide
  have hs : ∀ l ∈ s, l.WellTyped := by
    simp [s, Walk.here, Walk.link, Walk.place, Walk.free, Variable.fill, Literal.WellTyped,
      Variable.WellTyped, Variable.free]
  obtain ⟨-, hcount, -, choices, hascending, hmem, hall⟩ := groundings_exact htypes hs
  refine ⟨htypes, hs, hcount, choices, ?_, hascending, hmem, hall⟩
  rw [hall.length_eq]
  rfl

end ClassicalPlanning
