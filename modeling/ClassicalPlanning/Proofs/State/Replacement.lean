/-
Replacement of facts.

A successor of a state has the content of the state with the matched facts replaced by the
effects.  It exists whenever the state contains the matched facts, and then what the state
contains besides them is still there to be taken out.

The main results are `exists_removeAll_iff`, that facts can be taken out of a state just if the
state contains them, and `exists_successor_of_contains`, the replacement in a state that contains
further facts.
-/
import ClassicalPlanning.Proofs.State.Content

namespace ClassicalPlanning.State

variable {s t rest : State} {l : Literal} {ms ns effects : List Literal} {action : String}

/-- A state that contains a fact says what the fact says. -/
lemma proposition_mem_of_contains (h : s.Contains (l :: ms)) :
    l.proposition ∈ s.map Literal.proposition := by
  have hcount : 0 < s.countP (fun m => m ≈ l) := by
    have hcount := h l
    rw [List.countP_cons_of_pos (by exact decide_eq_true (Setoid.refl l))] at hcount
    omega
  obtain ⟨m, hm, hml⟩ := List.countP_pos_iff.mp hcount
  exact List.mem_map.mpr ⟨m, hm, Literal.equiv_iff.mp (of_decide_eq_true hml)⟩

/-- What a state contains besides some of its facts is contained in the others. -/
lemma contains_of_contains_append (h : s.Contains (ms ++ ns)) (hs : SameContent s (ms ++ rest)) :
    rest.Contains ns := by
  intro l
  have hcount := h l
  rw [hs.countP_eq l, List.countP_append, List.countP_append] at hcount
  omega

lemma Contains.of_append (h : s.Contains (ms ++ ns)) : s.Contains ms := by
  intro l
  have hcount := h l
  rw [List.countP_append] at hcount
  omega

lemma Contains.append_right (h : s.Contains ms) (ns : List Literal) :
    State.Contains (s ++ ns) ms := by
  intro l
  rw [List.countP_append]
  exact Nat.le_add_right_of_le (h l)

lemma Contains.of_perm (h : s.Contains ms) (hperm : ms.Perm ns) : s.Contains ns := by
  intro l
  rw [← hperm.countP_eq]
  exact h l

/-- Facts can be taken out of a state just if the state contains them. -/
lemma exists_removeAll_iff : (∃ rest, s.removeAll ms = .ok rest) ↔ s.Contains ms := by
  constructor
  · rintro ⟨rest, hrest⟩
    exact contains_of_sameContent (removeAll_eq_ok hrest).1
  · intro h
    induction ms generalizing s with
    | nil => exact ⟨s, rfl⟩
    | cons m ms ih =>
      obtain ⟨others, hothers⟩ := exists_remove? (proposition_mem_of_contains h)
      have hcontent : SameContent s ([m] ++ others) := (remove?_eq_some hothers).1
      have hms : State.Contains others ms := contains_of_contains_append h hcontent
      obtain ⟨rest, hrest⟩ := ih hms
      exact ⟨rest, by rw [removeAll, hothers]; exact hrest⟩

/-! ## Successors -/

/-- Together with the matched facts the successor has the content of the state together with
the effects. -/
lemma content_of_successor (h : s.successor action ms effects = .ok t) :
    SameContent (ms ++ t) (s ++ effects) := by
  obtain ⟨rest, hrest, rfl⟩ := successor_eq_ok_iff.mp h
  rw [← List.append_assoc]
  exact (removeAll_eq_ok hrest).1.symm.append (.refl effects)

lemma length_of_successor (h : s.successor action ms effects = .ok t) :
    ms.length + t.length = s.length + effects.length := by
  simpa using (content_of_successor h).length_eq

lemma contains_of_successor (h : s.successor action ms effects = .ok t) : s.Contains ms := by
  obtain ⟨rest, hrest, -⟩ := successor_eq_ok_iff.mp h
  exact exists_removeAll_iff.mp ⟨rest, hrest⟩

/-- In a state that contains further facts the matched ones can be replaced, and the further
facts are still there, whatever the effects are. -/
lemma exists_successor_of_contains (h : s.Contains (ms ++ ns)) (action : String)
    (effects : List Literal) : ∃ t, s.successor action ms effects = .ok t ∧ t.Contains ns := by
  obtain ⟨rest, hrest⟩ := exists_removeAll_iff.mpr h.of_append
  refine ⟨rest ++ effects, successor_eq_ok_iff.mpr ⟨rest, hrest, rfl⟩, ?_⟩
  have hns : State.Contains rest ns := contains_of_contains_append h (removeAll_eq_ok hrest).1
  exact hns.append_right effects

end ClassicalPlanning.State
