/-
Actions that ask for asserted facts only.

A denied fact of a state neither gives such an action a grounding nor takes one away, so its
groundings are those in the asserted facts (`groundings_positives`), however many denied
facts there are and whatever they say.  If no two asserted facts say the same, then no two
groundings do (`nodup_groundings`).
-/
import ClassicalPlanning.Proofs.Matching.Arrangement
import ClassicalPlanning.Proofs.Matching.Neutrality
import ClassicalPlanning.Proofs.Matching.Selection

namespace ClassicalPlanning

/-- The asserted facts of a state. -/
def State.positives (s : State) : State :=
  s.filter fun l => !l.isNegative

/-- Every precondition of the action asserts its atom. -/
def Action.AsksPositive (a : Action) : Prop :=
  ∀ p ∈ a.preconditions, p.isNegative = false

/-- What the facts of a grounding say, in the order of the preconditions. -/
def Grounding.premises (g : Grounding) : List Proposition :=
  g.matched.map Literal.proposition

/-! ## Asserted facts -/

section Positives

variable {s t : State}

@[simp] lemma positives_append (s t : State) :
    State.positives (s ++ t) = s.positives ++ t.positives :=
  List.filter_append ..

lemma positives_eq_self (h : ∀ l ∈ s, l.isNegative = false) : s.positives = s :=
  List.filter_eq_self.mpr fun l hl => by simp [h l hl]

/-- What a literal says decides whether it is asserted. -/
lemma map_proposition_positives (s : State) : s.positives.map Literal.proposition =
    (s.map Literal.proposition).filter fun q => !(q.head.polarity == .negative) := by
  rw [List.filter_map]
  rfl

lemma SameContent.positives (h : SameContent s t) : SameContent s.positives t.positives := by
  rw [SameContent, map_proposition_positives, map_proposition_positives]
  exact List.Perm.filter _ h

lemma perm_positives_append (s : State) :
    (s.positives ++ s.filter fun l => l.isNegative).Perm s := by
  have h := List.filter_append_perm (fun l : Literal => !l.isNegative) s
  simpa [State.positives] using h

end Positives

/-! ## Groundings in asserted facts -/

section Groundings

variable {a : Action} {s : State} {g : Grounding} {ms effects rest : List Literal}

lemma perm_of_groundingOf? {facts : List Literal} (h : a.groundingOf? facts = some g) :
    g.matched.Perm facts := by
  unfold Action.groundingOf? at h
  split at h
  next hfits =>
    obtain ⟨ms, hms, rfl⟩ := Option.map_eq_some_iff.mp h
    exact perm_of_arrange? hfits.1 hms
  next => simp at h

lemma heads_eq_of_mem_groundings (hg : g ∈ a.groundings s) :
    g.matched.map Literal.head = a.preconditions.map Literal.head := by
  obtain ⟨hlength, -, σ, hσ⟩ := of_mem_groundings hg
  exact Substitution.heads_eq_of_matchLiterals hlength hσ

/-- Literals have the polarities of their heads. -/
lemma isNegative_eq_false_of_heads (ha : a.AsksPositive)
    (hheads : (ms.map Literal.head).Perm (a.preconditions.map Literal.head)) :
    ∀ l ∈ ms, l.isNegative = false := by
  intro l hl
  obtain ⟨p, hp, hhead⟩ := List.mem_map.mp (hheads.subset (List.mem_map_of_mem hl))
  have hpolarity : p.polarity = l.polarity := congrArg Head.polarity hhead
  have hpositive := ha p hp
  rwa [Literal.isNegative, hpolarity] at hpositive

lemma isNegative_eq_false_of_mem_groundings (ha : a.AsksPositive) (hg : g ∈ a.groundings s) :
    ∀ l ∈ g.matched, l.isNegative = false :=
  isNegative_eq_false_of_heads ha (List.Perm.of_eq (heads_eq_of_mem_groundings hg))

/-- The facts of a grounding are asserted facts of the state. -/
lemma mem_positives_of_mem_groundings (ha : a.AsksPositive) (hg : g ∈ a.groundings s) {l : Literal}
    (hl : l ∈ g.matched) : l ∈ s.positives := by
  have hpositive := isNegative_eq_false_of_mem_groundings ha hg l hl
  exact List.mem_filter.mpr ⟨mem_of_mem_groundings hg hl, by simp [hpositive]⟩

/-- Denied facts play no part in the groundings of an action that asks for asserted facts. -/
theorem groundings_positives (ha : a.AsksPositive) (s : State) :
    a.groundings s.positives = a.groundings s := by
  rw [Action.groundings_eq_filterMap, Action.groundings_eq_filterMap, Action.candidates,
    Action.candidates, State.positives, ← filter_combinations, List.filterMap_filter]
  refine List.filterMap_congr fun facts _ => ?_
  split
  next => rfl
  next hmixed =>
    -- A candidate with a denied fact is turned away for its heads.
    refine (if_neg fun hfits => hmixed (List.all_eq_true.mpr fun l hl => ?_)).symm
    simp [isNegative_eq_false_of_heads ha (List.isPerm_iff.mp hfits.2) l hl]

/-- Choices from a list without repetition are determined by their elements. -/
lemma eq_of_perm_of_sublist {α : Type} [DecidableEq α] {l t t' : List α} (hperm : t.Perm t')
    (ht : t.Sublist l) (ht' : t'.Sublist l) (hl : l.Nodup) : t = t' := by
  -- Both keep the order in which the elements stand in the list.
  have horder : l.Pairwise fun a b => l.idxOf a ≤ l.idxOf b := by
    rw [List.pairwise_iff_getElem]
    intro i j hi hj hij
    rw [hl.idxOf_getElem, hl.idxOf_getElem]
    omega
  refine hperm.eq_of_pairwise (fun a b ha _ hab hba => ?_) (horder.sublist ht) (horder.sublist ht')
  exact (List.idxOf_inj (ht.subset ha)).mp (Nat.le_antisymm hab hba)

/-- If no two asserted facts say the same, no two groundings take facts that say the same. -/
theorem nodup_groundings (ha : a.AsksPositive)
    (hs : (s.positives.map Literal.proposition).Nodup) :
    ((a.groundings s).map Grounding.premises).Nodup := by
  -- Candidates are choices from what the asserted facts say, so they differ in content.
  have hcandidates : (a.candidates s.positives).Pairwise fun t t' => ¬ SameContent t t' := by
    have hchoices := nodup_combinations hs a.preconditions.length
    rw [combinations_map, List.nodup_iff_pairwise_ne, List.pairwise_map] at hchoices
    refine hchoices.imp_of_mem fun {t t'} ht ht' hne hsame => hne ?_
    exact eq_of_perm_of_sublist hsame ((mem_combinations.mp ht).1.map _)
      ((mem_combinations.mp ht').1.map _) hs
  rw [← groundings_positives ha, Action.groundings_eq_filterMap, List.map_filterMap,
    List.nodup_iff_pairwise_ne]
  refine hcandidates.filterMap _ fun t t' hne qs hqs qs' hqs' heq => hne ?_
  obtain ⟨g, hg, rfl⟩ := Option.map_eq_some_iff.mp hqs
  obtain ⟨g', hg', rfl⟩ := Option.map_eq_some_iff.mp hqs'
  have hperm : SameContent t g.matched := SameContent.of_perm (perm_of_groundingOf? hg).symm
  have hperm' : SameContent g'.matched t' := SameContent.of_perm (perm_of_groundingOf? hg')
  exact (hperm.trans (List.Perm.of_eq heq)).trans hperm'

end Groundings

end ClassicalPlanning
