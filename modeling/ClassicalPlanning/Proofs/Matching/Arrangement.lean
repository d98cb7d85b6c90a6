/-
Arrangements and groundings.

The matcher tries the arrangements of a set of facts and keeps the first that matches.  An
arrangement that it keeps matches the preconditions one by one (`arrange?_eq_some`), and it
keeps one whenever there is one (`exists_arrange?`).  For groundings this says that each of
them takes different facts of the state, as many as there are preconditions
(`of_mem_groundings`), and that every set of facts with a matching arrangement has a
grounding (`exists_grounding`), also in a state that has the facts under other names of
bound variables (`exists_grounding_of_unifyAll`).
-/
import ClassicalPlanning.Proofs.Matching.Likeness
import Mathlib.Data.List.Perm.Subperm

namespace ClassicalPlanning

lemma exists_mem_picks {α : Type} {l : List α} {a : α} (h : a ∈ l) :
    ∃ rest, (a, rest) ∈ picks l := by
  induction l with
  | nil => simp at h
  | cons b l ih =>
    rcases List.mem_cons.mp h with rfl | h
    · exact ⟨l, List.mem_cons_self⟩
    · obtain ⟨rest, hrest⟩ := ih h
      exact ⟨b :: rest, List.mem_cons_of_mem _ (List.mem_map.mpr ⟨(a, rest), hrest, rfl⟩)⟩

section Arrangements

variable {patterns facts ms rest : List Literal} {σ τ : Substitution}

/-- An arrangement that is kept takes one fact for each pattern, and they match in step. -/
lemma arrange?_eq_some (h : arrange? patterns facts σ = some ms) :
    ms.length = patterns.length ∧ (∃ rest, (ms ++ rest).Perm facts) ∧
      ∃ τ, σ.matchLiterals patterns ms = .ok τ := by
  induction patterns generalizing facts σ ms with
  | nil =>
    obtain rfl : [] = ms := by simpa [arrange?] using h
    exact ⟨rfl, ⟨facts, List.Perm.refl _⟩, σ, rfl⟩
  | cons p patterns ih =>
    rw [arrange?] at h
    obtain ⟨⟨l, others⟩, hpick, hl⟩ := List.exists_of_findSome?_eq_some h
    simp only at hl
    split at hl
    next ρ hρ =>
      obtain ⟨ms, hms, rfl⟩ := Option.map_eq_some_iff.mp hl
      obtain ⟨hlength, ⟨rest, hrest⟩, τ, hτ⟩ := ih hms
      refine ⟨by simp [hlength], ⟨rest, ?_⟩, τ, ?_⟩
      · exact (hrest.cons l).trans (perm_of_mem_picks hpick)
      · exact Substitution.matchLiterals_cons_eq_ok_iff.mpr ⟨ρ, hρ, hτ⟩
    next => simp at hl

/-- If some of the facts, in some order, match the patterns in step, an arrangement is
kept. -/
lemma exists_arrange? (hlength : ms.length = patterns.length) (hperm : (ms ++ rest).Perm facts)
    (h : σ.matchLiterals patterns ms = .ok τ) : ∃ ms', arrange? patterns facts σ = some ms' := by
  induction patterns generalizing facts σ ms with
  | nil => exact ⟨[], rfl⟩
  | cons p patterns ih =>
    obtain _ | ⟨m, ms⟩ := ms
    · simp at hlength
    -- The first fact of the given arrangement is among the picks, so some pick goes through.
    · obtain ⟨ρ, hρ, hmatch⟩ := Substitution.matchLiterals_cons_eq_ok_iff.mp h
      obtain ⟨others, hpick⟩ := exists_mem_picks (hperm.subset (List.mem_cons_self))
      have hothers : (ms ++ rest).Perm others :=
        List.Perm.cons_inv (hperm.trans (perm_of_mem_picks hpick).symm)
      obtain ⟨ms', hms'⟩ := ih (by simpa using hlength) hothers hmatch
      rw [arrange?, ← Option.isSome_iff_exists, List.findSome?_isSome_iff]
      exact ⟨(m, others), hpick, by simp [hρ, hms']⟩

/-- An arrangement of as many facts as there are patterns leaves none of them out. -/
lemma perm_of_arrange? (hlength : facts.length = patterns.length)
    (h : arrange? patterns facts σ = some ms) : ms.Perm facts := by
  obtain ⟨hlength', ⟨rest, hrest⟩, -⟩ := arrange?_eq_some h
  have hnil : rest = [] := by
    have := hrest.length_eq
    rw [List.length_append] at this
    exact List.length_eq_zero_iff.mp (by omega)
  simpa [hnil] using hrest

end Arrangements

/-! ## Groundings -/

section Groundings

variable {a : Action} {s : State} {g : Grounding} {ms rest : List Literal} {σ : Substitution}

/-- A grounding takes one fact of the state for each precondition, and they match in step. -/
lemma of_mem_groundings (h : g ∈ a.groundings s) :
    g.matched.length = a.preconditions.length ∧ (∃ rest, (g.matched ++ rest).Perm s) ∧
      ∃ σ, unifyAll a.preconditions g.matched = .ok σ := by
  obtain ⟨facts, hfacts, hg⟩ := List.mem_filterMap.mp h
  obtain ⟨ms, hms, rfl⟩ := Option.map_eq_some_iff.mp hg
  obtain ⟨hlength, ⟨rest, hrest⟩, hmatch⟩ := arrange?_eq_some hms
  rw [selections_eq_filter] at hfacts
  have hsublist : facts.Sublist s := (mem_combinations.mp (List.mem_of_mem_filter hfacts)).1
  obtain ⟨others, hothers⟩ := hsublist.exists_perm_append
  refine ⟨hlength, ⟨rest ++ others, ?_⟩, hmatch⟩
  rw [← List.append_assoc]
  exact (hrest.append_right others).trans hothers.symm

lemma mem_of_mem_groundings (hg : g ∈ a.groundings s) {l : Literal} (hl : l ∈ g.matched) :
    l ∈ s := by
  obtain ⟨-, ⟨rest, hperm⟩, -⟩ := of_mem_groundings hg
  exact hperm.subset (List.mem_append_left _ hl)

/-- If some facts of the state match the preconditions in step, the same facts, in some
order, are a grounding. -/
lemma exists_grounding (hlength : ms.length = a.preconditions.length)
    (hperm : (ms ++ rest).Perm s) (h : unifyAll a.preconditions ms = .ok σ) :
    ∃ g ∈ a.groundings s, g.matched.Perm ms := by
  -- The same facts in the order of the state are a selection.
  obtain ⟨facts, hfacts, hsublist⟩ : ms.Subperm s :=
    (List.sublist_append_left ms rest).subperm.trans hperm.subperm
  have hlengths : facts.length = a.preconditions.length := hfacts.length_eq.trans hlength
  have hheads : (facts.map Literal.head).Perm (a.preconditions.map Literal.head) :=
    Substitution.heads_eq_of_matchLiterals hlength h ▸ hfacts.map Literal.head
  have hall : (ms ++ []).Perm facts := by simpa using hfacts.symm
  obtain ⟨ms', hms'⟩ := exists_arrange? hlength hall h
  refine ⟨⟨ms'⟩, ?_, (perm_of_arrange? hlengths hms').trans hfacts⟩
  refine List.mem_filterMap.mpr ⟨facts, ?_, by rw [hms', Option.map_some]⟩
  rw [selections_eq_filter, List.mem_filter, mem_combinations, List.length_map]
  exact ⟨⟨hsublist, hlengths⟩, List.isPerm_iff.mpr hheads⟩

/-- If facts match the preconditions in step, a state in which like facts occur has a grounding
by such facts. -/
lemma exists_grounding_of_unifyAll (hlength : ms.length = a.preconditions.length)
    (h : unifyAll a.preconditions ms = .ok σ) (hcontent : SameContent (ms ++ rest) s) :
    ∃ g ∈ a.groundings s, SameContent ms g.matched := by
  obtain ⟨ns, hns, hsame⟩ := hcontent.exists_perm
  rw [List.map_append, List.map_eq_append_iff] at hsame
  obtain ⟨ls, others, rfl, hls, -⟩ := hsame
  obtain ⟨τ, hτ, -⟩ := Substitution.matchLiterals_congr (fun _ => rfl) hls.symm h
  have hlengths : ls.length = a.preconditions.length := by
    rw [← hlength]
    simpa using congrArg List.length hls
  obtain ⟨g, hg, hperm⟩ := exists_grounding hlengths hns hτ
  exact ⟨g, hg, (List.Perm.of_eq hls.symm).trans (SameContent.of_perm hperm.symm)⟩

lemma exists_grounding_of_yields {effects : List Literal} (h : a.Yields ms effects)
    (hcontent : SameContent (ms ++ rest) s) :
    ∃ g ∈ a.groundings s, SameContent ms g.matched := by
  obtain ⟨hlength, σ, hσ, -⟩ := h
  exact exists_grounding_of_unifyAll hlength hσ hcontent

end Groundings

end ClassicalPlanning
