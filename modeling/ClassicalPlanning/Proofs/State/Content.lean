/-
The content of a state.

The order of the facts of a state carries no meaning, and neither do the names of bound
variables.  What remains is how often the state says what: `SameContent` compares lists of
literals in this respect, and `State.Contains` says that a state has enough facts for a
list of literals.

The main results are `removeAll_eq_ok`, that facts that can be taken out of a state are
contained in it, and that they and the facts that stay have the content of the state, and
`exists_removeAll`, that facts can be taken out of every state that has them among its
content.
-/
import ClassicalPlanning.Progression
import Mathlib.Data.List.Perm.Basic
import Mathlib.Tactic.Lemma

namespace ClassicalPlanning

/-- Two lists of literals say the same things equally often. -/
def SameContent (ls ms : List Literal) : Prop :=
  (ls.map Literal.proposition).Perm (ms.map Literal.proposition)

/-- The state says everything that the literals say, at least as often as they do. -/
def State.Contains (s : State) (ls : List Literal) : Prop :=
  ∀ l : Literal, ls.countP (fun m => m ≈ l) ≤ s.countP (fun m => m ≈ l)

/-- A state satisfies a goal just if it says all that the goal says. -/
lemma State.satisfies_iff_subset {s : State} {goal : List Literal} : s.Satisfies goal ↔
    goal.map Literal.proposition ⊆ s.map Literal.proposition := by
  constructor
  · intro h q hq
    obtain ⟨l, hl, rfl⟩ := List.mem_map.mp hq
    obtain ⟨m, hm, hml⟩ := h l hl
    exact List.mem_map.mpr ⟨m, hm, Literal.equiv_iff.mp hml⟩
  · intro h l hl
    obtain ⟨m, hm, hml⟩ := List.mem_map.mp (h (List.mem_map_of_mem hl))
    exact ⟨m, hm, Literal.equiv_iff.mpr hml⟩

namespace SameContent

variable {ls ms ns ls' ms' : List Literal}

lemma refl (ls : List Literal) : SameContent ls ls := List.Perm.refl _

lemma symm (h : SameContent ls ms) : SameContent ms ls := List.Perm.symm h

lemma trans (h : SameContent ls ms) (h' : SameContent ms ns) : SameContent ls ns :=
  List.Perm.trans h h'

lemma of_perm (h : ls.Perm ms) : SameContent ls ms := h.map _

lemma append (h : SameContent ls ms) (h' : SameContent ls' ms') :
    SameContent (ls ++ ls') (ms ++ ms') := by
  simpa only [SameContent, List.map_append] using List.Perm.append h h'

/-- What two lists have in common in front can be left away. -/
lemma cancel_left (h : SameContent (ls ++ ls') (ms ++ ms')) (hfront : SameContent ls ms) :
    SameContent ls' ms' := by
  simp only [SameContent, List.map_append] at h hfront ⊢
  exact (List.perm_append_left_iff _).mp (h.trans (hfront.symm.append_right _))

lemma countP_eq (h : SameContent ls ms) (l : Literal) :
    ls.countP (fun m => m ≈ l) = ms.countP (fun m => m ≈ l) := by
  have hcount := List.Perm.countP_eq (fun q => decide (q = l.proposition)) h
  rwa [List.countP_map, List.countP_map] at hcount

/-- Lists of the same content satisfy the same goals. -/
lemma satisfies {s t : State} (h : SameContent s t) {goal : List Literal}
    (hs : s.Satisfies goal) : t.Satisfies goal := by
  rw [State.satisfies_iff_subset] at hs ⊢
  exact List.Subset.trans hs (List.Perm.subset h)

/-- A list of the same content can be rearranged so that it agrees place by place. -/
lemma exists_perm (h : SameContent ls ms) :
    ∃ ns : List Literal, ns.Perm ms ∧ ns.map Literal.proposition = ls.map Literal.proposition := by
  have hcomp : Relation.Comp (· = List.map Literal.proposition ·) List.Perm
      (ls.map Literal.proposition) ms := by
    rwa [List.eq_map_comp_perm]
  obtain ⟨ns, hns, hperm⟩ := hcomp
  exact ⟨ns, hperm, hns.symm⟩

end SameContent

namespace State

variable {s rest : State} {l : Literal} {ms : List Literal}

/-- Taking out a fact leaves the other facts, in their order. -/
lemma remove?_eq_some (h : s.remove? l = some rest) :
    SameContent s (l :: rest) ∧ rest.Sublist s := by
  induction s generalizing rest with
  | nil => simp [remove?] at h
  | cons m s ih =>
    unfold remove? at h
    split at h
    next hm =>
      obtain rfl : s = rest := by simpa using h
      exact ⟨List.Perm.of_eq (by simp [Literal.equiv_iff.mp hm]), List.sublist_cons_self m s⟩
    next hm =>
      obtain ⟨rest', hrest, rfl⟩ := Option.map_eq_some_iff.mp h
      obtain ⟨hcontent, hsublist⟩ := ih hrest
      refine ⟨?_, hsublist.cons_cons m⟩
      exact (List.Perm.cons m.proposition hcontent).trans (List.Perm.swap _ _ _)

/-- Taking out facts leaves the other facts, in their order. -/
lemma removeAll_eq_ok (h : s.removeAll ms = .ok rest) :
    SameContent s (ms ++ rest) ∧ rest.Sublist s := by
  induction ms generalizing s with
  | nil =>
    obtain rfl : s = rest := by simpa [removeAll] using h
    exact ⟨.refl s, List.Sublist.refl s⟩
  | cons m ms ih =>
    unfold removeAll at h
    split at h
    · simp at h
    next rest' hrest =>
      obtain ⟨hcontent, hsublist⟩ := remove?_eq_some hrest
      obtain ⟨hcontent', hsublist'⟩ := ih h
      refine ⟨hcontent.trans ?_, hsublist'.trans hsublist⟩
      exact List.Perm.cons m.proposition hcontent'

lemma exists_remove? (h : l.proposition ∈ s.map Literal.proposition) :
    ∃ rest, s.remove? l = some rest := by
  induction s with
  | nil => simp at h
  | cons m s ih =>
    unfold remove?
    split
    next => exact ⟨s, rfl⟩
    next hm =>
      rw [List.map_cons, List.mem_cons] at h
      rcases h with heq | h
      · exact absurd (Literal.equiv_iff.mpr heq.symm) hm
      · obtain ⟨rest, hrest⟩ := ih h
        exact ⟨m :: rest, by rw [hrest, Option.map_some]⟩

/-- Facts can be taken out of a state that has them among its content. -/
lemma exists_removeAll (h : SameContent s (ms ++ rest)) :
    ∃ rest', s.removeAll ms = .ok rest' := by
  -- By induction on the facts to be taken out: after the first of them the state still has the
  -- content of the others and of what stays.
  induction ms generalizing s with
  | nil => exact ⟨s, rfl⟩
  | cons m ms ih =>
    have hmem : m.proposition ∈ s.map Literal.proposition :=
      h.symm.subset (List.mem_map_of_mem List.mem_cons_self)
    obtain ⟨others, hothers⟩ := exists_remove? hmem
    have hcontent : SameContent ([m] ++ others) ([m] ++ (ms ++ rest)) :=
      (remove?_eq_some hothers).1.symm.trans h
    obtain ⟨rest', hrest'⟩ := ih (hcontent.cancel_left (.refl [m]))
    refine ⟨rest', ?_⟩
    rw [removeAll, hothers]
    exact hrest'

lemma contains_of_sameContent (h : SameContent s (ms ++ rest)) : s.Contains ms := by
  intro l
  rw [h.countP_eq l, List.countP_append]
  omega

lemma successor_eq_ok_iff {action : String} {s t : State} {matched effects : List Literal} :
    s.successor action matched effects = .ok t ↔
      ∃ rest, s.removeAll matched = .ok rest ∧ t = rest ++ effects := by
  unfold State.successor
  split
  next l hl => simp [hl]
  next rest hrest => simp [hrest, eq_comm]

end State

end ClassicalPlanning
