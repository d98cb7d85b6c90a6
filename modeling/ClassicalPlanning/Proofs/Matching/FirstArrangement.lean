/-
The first arrangement.

The matcher fills the preconditions of an action one after the other, each with the first fact that
is left and matches, and goes back when it cannot go on.  What it comes to is the same as if it had
gone through all the orders of the facts, from the least to the greatest sequence of places, and
had stopped at the first in which the facts match the preconditions in step: an order that begins
with an earlier place has been given up only because nothing that begins with it matches
(`isLeast_of_arrange?`).

Before it begins, the matcher compares the candidate with the preconditions: the number of denied
literals, and the predicates of the denied and of the asserted ones.  It keeps these tests as one,
on the polarities and predicates taken together, which says the same (`passesTests_iff`), and no
candidate that can be arranged fails them.

The main result is `grounding_is_first_arrangement`.
-/
import ClassicalPlanning.Proofs.Matching.Arrangement
import ClassicalPlanning.Proofs.Matching.Selection
import ClassicalPlanning.Proofs.Walk
import Mathlib.Order.Bounds.Basic
import Mathlib.Order.Fin.Basic

namespace ClassicalPlanning

/-! ## Arrangements by places -/

/-- The places `is` are different ones of the given places, one for each pattern, and the facts at
them match the patterns in step. -/
structure Arranges {ι : Type} (fact : ι → Literal) (patterns : List Literal) (places : List ι)
    (σ : Substitution) (is : List ι) : Prop where
  length_eq : is.length = patterns.length
  exists_perm : ∃ rest, (is ++ rest).Perm places
  exists_match : ∃ τ, σ.matchLiterals patterns (is.map fact) = .ok τ

section Arrangements

variable {ι : Type} {fact : ι → Literal} {p : Literal} {patterns ms : List Literal}
  {places others is : List ι} {i : ι} {σ : Substitution}

/-- The places that come after the first one arrange what is left. -/
lemma arranges_cons_iff (hpick : (i, others) ∈ picks places) :
    Arranges fact (p :: patterns) places σ (i :: is) ↔
      ∃ ρ, σ.matchLiteral p (fact i) = .ok ρ ∧ Arranges fact patterns others ρ is := by
  have hothers := perm_of_mem_picks hpick
  constructor
  · rintro ⟨hlength, ⟨rest, hrest⟩, τ, hτ⟩
    obtain ⟨ρ, hρ, hmatch⟩ := Substitution.matchLiterals_cons_eq_ok_iff.mp hτ
    exact ⟨ρ, hρ, by simpa using hlength, ⟨rest, (hrest.trans hothers.symm).cons_inv⟩, τ, hmatch⟩
  · rintro ⟨ρ, hρ, hlength, ⟨rest, hrest⟩, τ, hτ⟩
    exact ⟨by simp [hlength], ⟨rest, (hrest.cons i).trans hothers⟩, τ,
      Substitution.matchLiterals_cons_eq_ok_iff.mpr ⟨ρ, hρ, hτ⟩⟩

lemma Arranges.exists_arrange? (h : Arranges fact patterns places σ is) :
    ∃ ms, arrange? patterns (places.map fact) σ = some ms := by
  obtain ⟨hlength, ⟨rest, hrest⟩, τ, hτ⟩ := h
  have hperm : (is.map fact ++ rest.map fact).Perm (places.map fact) := by
    rw [← List.map_append]
    exact hrest.map fact
  exact ClassicalPlanning.exists_arrange? (by simpa using hlength) hperm hτ

lemma nil_le [LinearOrder ι] (is : List ι) : [] ≤ is := by
  obtain _ | ⟨i, is⟩ := is
  · exact le_rfl
  · exact le_of_lt List.Lex.nil

/-- The first place of an arrangement that is kept is the first that can be completed. -/
lemma exists_first_of_arrange? [LinearOrder ι] (hplaces : places.Pairwise (· < ·))
    (h : arrange? (p :: patterns) (places.map fact) σ = some ms) :
    ∃ i others ρ ms', (i, others) ∈ picks places ∧ σ.matchLiteral p (fact i) = .ok ρ ∧
      arrange? patterns (others.map fact) ρ = some ms' ∧ fact i :: ms' = ms ∧
      ∀ j js, Arranges fact (p :: patterns) places σ (j :: js) → i ≤ j := by
  rw [arrange?, picks_map, List.findSome?_map] at h
  obtain ⟨before, ⟨i, others⟩, after, hpicks, hi, hbefore⟩ := List.findSome?_eq_some_iff.mp h
  simp only [Function.comp_apply, Prod.map_apply] at hi
  split at hi
  next ρ hρ =>
    obtain ⟨ms', hms', hms⟩ := Option.map_eq_some_iff.mp hi
    refine ⟨i, others, ρ, ms', by simp [hpicks], hρ, hms', hms, fun j js hjs => ?_⟩
    obtain ⟨rest, hrest⟩ := hjs.exists_perm
    obtain ⟨others', hpick⟩ := exists_mem_picks (hrest.subset List.mem_cons_self)
    obtain ⟨ρ', hρ', hjs'⟩ := (arranges_cons_iff hpick).mp hjs
    have horder : (picks places).Pairwise fun x y => x.1 < y.1 := by
      rwa [← List.pairwise_map, map_fst_picks]
    rw [hpicks] at hpick horder
    rcases List.mem_append.mp hpick with hmem | hmem
    -- A pick before the one that is kept cannot be completed.
    · have hnone := hbefore _ hmem
      obtain ⟨ms'', hms''⟩ := hjs'.exists_arrange?
      simp [hρ', hms''] at hnone
    · rcases List.mem_cons.mp hmem with heq | hmem
      · exact (Prod.mk.inj heq).1.ge
      · have hafter := (List.pairwise_cons.mp (List.pairwise_append.mp horder).2.1).1
        exact le_of_lt (hafter _ hmem)
  next => simp at hi

/-- The arrangement that is kept is at the least sequence of places. -/
theorem isLeast_of_arrange? [LinearOrder ι] (hplaces : places.Pairwise (· < ·))
    (h : arrange? patterns (places.map fact) σ = some ms) :
    ∃ is, IsLeast {is | Arranges fact patterns places σ is} is ∧ is.map fact = ms := by
  induction patterns generalizing places σ ms with
  | nil =>
    obtain rfl : [] = ms := by simpa [arrange?] using h
    exact ⟨[], ⟨⟨rfl, ⟨places, List.Perm.refl _⟩, σ, rfl⟩, fun is _ => nil_le is⟩, rfl⟩
  | cons p patterns ih =>
    obtain ⟨i, others, ρ, ms', hpick, hρ, hms', rfl, hfirst⟩ := exists_first_of_arrange? hplaces h
    obtain ⟨is, ⟨his, hleast⟩, rfl⟩ := ih (hplaces.sublist (sublist_of_mem_picks hpick)) hms'
    refine ⟨i :: is, ⟨(arranges_cons_iff hpick).mpr ⟨ρ, hρ, his⟩, fun js hjs => ?_⟩, rfl⟩
    obtain _ | ⟨j, js⟩ := js
    · simpa using hjs.length_eq
    rcases (hfirst j js hjs).lt_or_eq with hlt | rfl
    · exact le_of_lt (List.Lex.rel hlt)
    · obtain ⟨ρ', hρ', hjs'⟩ := (arranges_cons_iff hpick).mp hjs
      obtain rfl : ρ = ρ' := Except.ok.inj (hρ.symm.trans hρ')
      exact List.cons_le_cons _ (hleast hjs')

end Arrangements

/-! ## The tests before the search -/

/-- The predicates of the denied and of the asserted literals, each in ascending order. -/
def predicateProfile (ls : List Literal) : List String × List String :=
  (((ls.filter Literal.isNegative).map Literal.predicate).mergeSort,
    ((ls.filter fun l => !l.isNegative).map Literal.predicate).mergeSort)

/-- The candidate has as many denied literals as the preconditions, and the same predicates. -/
def Action.PassesTests (a : Action) (facts : List Literal) : Prop :=
  facts.countP Literal.isNegative = a.deniedCount ∧
    predicateProfile facts = predicateProfile a.preconditions

section Tests

variable {a : Action} {facts ls ms : List Literal}

lemma mergeSort_eq_iff {xs ys : List String} : xs.mergeSort = ys.mergeSort ↔ xs.Perm ys := by
  have hsorted : ∀ zs : List String, zs.mergeSort.Pairwise (· ≤ ·) := by
    intro zs
    have h : (zs.mergeSort fun a b => decide (a ≤ b)).Pairwise fun a b => decide (a ≤ b) :=
      List.pairwise_mergeSort (by simpa using fun _ _ _ => String.le_trans)
        (by simpa using String.le_total) zs
    simpa using h
  constructor
  · intro h
    exact (List.mergeSort_perm xs _).symm.trans (h ▸ List.mergeSort_perm ys _)
  · intro h
    have hperm : xs.mergeSort.Perm ys.mergeSort :=
      ((List.mergeSort_perm xs _).trans h).trans (List.mergeSort_perm ys _).symm
    exact hperm.eq_of_pairwise (fun _ _ _ _ => String.le_antisymm) (hsorted xs) (hsorted ys)

/-- The heads of literals are those of the denied and those of the asserted ones. -/
lemma perm_map_head (ls : List Literal) : (ls.map Literal.head).Perm
    (((ls.filter Literal.isNegative).map Literal.predicate).map (Head.mk .negative) ++
      ((ls.filter fun l => !l.isNegative).map Literal.predicate).map (Head.mk .positive)) := by
  have hperm := (List.filter_append_perm Literal.isNegative ls).symm.map Literal.head
  rw [List.map_append] at hperm
  refine hperm.trans (List.Perm.of_eq ?_)
  rw [List.map_map, List.map_map]
  congr 1
  · refine List.map_congr_left fun l hl => ?_
    have hnegative : l.polarity = .negative := by
      simpa [Literal.isNegative] using (List.mem_filter.mp hl).2
    simp [Literal.head, hnegative]
  · refine List.map_congr_left fun l hl => ?_
    have hpositive : l.polarity = .positive := by
      cases hpolarity : l.polarity with
      | positive => rfl
      | negative => simpa [Literal.isNegative, hpolarity] using (List.mem_filter.mp hl).2
    simp [Literal.head, hpositive]

lemma predicateProfile_eq_iff : predicateProfile ls = predicateProfile ms ↔
    (ls.map Literal.head).Perm (ms.map Literal.head) := by
  rw [predicateProfile, predicateProfile, Prod.mk.injEq, mergeSort_eq_iff, mergeSort_eq_iff]
  constructor
  · rintro ⟨hdenied, hasserted⟩
    exact (perm_map_head ls).trans
      (((hdenied.map _).append (hasserted.map _)).trans (perm_map_head ms).symm)
  · intro h
    have hnames : ∀ test : Head → Bool,
        ((ls.filter fun l => test l.head).map Literal.predicate).Perm
          ((ms.filter fun l => test l.head).map Literal.predicate) := by
      intro test
      have hfilter := (h.filter test).map Head.predicate
      rw [List.filter_map, List.filter_map, List.map_map, List.map_map] at hfilter
      exact hfilter
    exact ⟨hnames fun h => h.polarity == .negative, hnames fun h => !(h.polarity == .negative)⟩

/-- The two tests ask together that the heads are the same. -/
lemma passesTests_iff :
    a.PassesTests facts ↔ (facts.map Literal.head).Perm (a.preconditions.map Literal.head) := by
  rw [Action.PassesTests, predicateProfile_eq_iff, and_iff_right_iff_imp]
  intro h
  have hcount := h.countP_eq fun h => h.polarity == .negative
  rwa [List.countP_map, List.countP_map] at hcount

end Tests

/-! ## Groundings of a candidate -/

/-- The places `is` are the given places in some order, and the facts at them match the
preconditions in step. -/
def Action.MatchesAt {ι : Type} (a : Action) (fact : ι → Literal) (places is : List ι) : Prop :=
  is.Perm places ∧ ∃ σ, unifyAll a.preconditions (is.map fact) = .ok σ

section Candidates

variable {ι : Type} {a : Action} {fact : ι → Literal} {places is : List ι}
  {facts facts' : List Literal} {g : Grounding}

lemma arranges_iff (hlength : places.length = a.preconditions.length) :
    Arranges fact a.preconditions places ∅ is ↔ a.MatchesAt fact places is := by
  constructor
  · rintro ⟨his, ⟨rest, hrest⟩, hmatch⟩
    have hnil : rest = [] := by
      have h := hrest.length_eq
      rw [List.length_append] at h
      exact List.length_eq_zero_iff.mp (by omega)
    exact ⟨by simpa [hnil] using hrest, hmatch⟩
  · rintro ⟨hperm, hmatch⟩
    exact ⟨hperm.length_eq.trans hlength, ⟨[], by simpa using hperm⟩, hmatch⟩

/-- Facts that can be arranged pass the tests. -/
lemma Action.MatchesAt.passesTests (hlength : places.length = a.preconditions.length)
    (h : a.MatchesAt fact places is) : a.PassesTests (places.map fact) := by
  obtain ⟨hperm, σ, hσ⟩ := h
  have hlengths : (is.map fact).length = a.preconditions.length := by
    rw [List.length_map, hperm.length_eq, hlength]
  rw [passesTests_iff, ← Substitution.heads_eq_of_matchLiterals hlengths hσ]
  exact ((hperm.map fact).map Literal.head).symm

/-- The tests turn away nothing that could be arranged. -/
lemma groundingOf?_eq_map_arrange? (hlength : facts.length = a.preconditions.length) :
    a.groundingOf? facts = (arrange? a.preconditions facts ∅).map Grounding.mk := by
  unfold Action.groundingOf?
  split
  next => rfl
  next htests =>
    cases harrange : arrange? a.preconditions facts ∅ with
    | none => rfl
    | some ms =>
      obtain ⟨hlength', -, σ, hσ⟩ := arrange?_eq_some harrange
      have hheads : (facts.map Literal.head).Perm (a.preconditions.map Literal.head) := by
        rw [← Substitution.heads_eq_of_matchLiterals hlength' hσ]
        exact ((perm_of_arrange? hlength harrange).map _).symm
      exact absurd ⟨hlength, List.isPerm_iff.mpr hheads⟩ htests

lemma groundingOf?_eq_some_iff (hlength : facts.length = a.preconditions.length) :
    a.groundingOf? facts = some g ↔ arrange? a.preconditions facts ∅ = some g.matched := by
  rw [groundingOf?_eq_map_arrange? hlength, Option.map_eq_some_iff]
  constructor
  · rintro ⟨ms, hms, rfl⟩
    exact hms
  · intro h
    exact ⟨g.matched, h, rfl⟩

lemma groundingOf?_eq_none (hlength : facts.length ≠ a.preconditions.length) :
    a.groundingOf? facts = none :=
  if_neg fun h => hlength h.1

/-- The facts of a grounding are those of the candidate, in the first order that matches. -/
lemma exists_isLeast_of_groundingOf? [LinearOrder ι] (hplaces : places.Pairwise (· < ·))
    (hlength : places.length = a.preconditions.length)
    (hg : a.groundingOf? (places.map fact) = some g) :
    ∃ is, IsLeast {is | a.MatchesAt fact places is} is ∧ is.map fact = g.matched := by
  rw [groundingOf?_eq_some_iff (by rwa [List.length_map])] at hg
  obtain ⟨is, hleast, hmatched⟩ := isLeast_of_arrange? hplaces hg
  simp only [arranges_iff hlength] at hleast
  exact ⟨is, hleast, hmatched⟩

lemma exists_groundingOf?_of_matchesAt (hlength : places.length = a.preconditions.length)
    (h : a.MatchesAt fact places is) : ∃ g, a.groundingOf? (places.map fact) = some g := by
  obtain ⟨ms, hms⟩ := ((arranges_iff hlength).mpr h).exists_arrange?
  exact ⟨⟨ms⟩, (groundingOf?_eq_some_iff (by rwa [List.length_map])).mpr hms⟩

/-- Whether a candidate has a grounding does not depend on the order of its facts. -/
lemma exists_groundingOf?_of_perm (hperm : facts'.Perm facts)
    (h : ∃ g, a.groundingOf? facts = some g) : ∃ g, a.groundingOf? facts' = some g := by
  obtain ⟨g, hg⟩ := h
  by_cases hlength : facts.length = a.preconditions.length
  · obtain ⟨hlength', ⟨rest, hrest⟩, τ, hτ⟩ :=
      arrange?_eq_some ((groundingOf?_eq_some_iff hlength).mp hg)
    obtain ⟨ms, hms⟩ := exists_arrange? hlength' (hrest.trans hperm.symm) hτ
    exact ⟨⟨ms⟩, (groundingOf?_eq_some_iff (hperm.length_eq.trans hlength)).mpr hms⟩
  · simp [groundingOf?_eq_none hlength] at hg

/-- **The matcher finds the first order that matches.**  A candidate of the wrong size has no
grounding.  One of the right size has a grounding just if its facts, in some order, match the
preconditions in step; the grounding has them in the first such order, counted by places, and none
of the tests before the search turns the candidate away.  The order in which the candidate lists
its facts decides about the grounding, but not whether there is one. -/
theorem grounding_is_first_arrangement (a : Action) (facts : List Literal) :
    (facts.length ≠ a.preconditions.length → a.groundingOf? facts = none) ∧
    (facts.length = a.preconditions.length →
      ((∃ g, a.groundingOf? facts = some g) ↔
        ∃ is, a.MatchesAt facts.get (List.finRange facts.length) is) ∧
      (∀ g, a.groundingOf? facts = some g ↔
        ∃ is, IsLeast {is | a.MatchesAt facts.get (List.finRange facts.length) is} is ∧
          is.map facts.get = g.matched) ∧
      ∀ is, a.MatchesAt facts.get (List.finRange facts.length) is → a.PassesTests facts) ∧
    ∀ facts', facts'.Perm facts →
      ((∃ g, a.groundingOf? facts' = some g) ↔ ∃ g, a.groundingOf? facts = some g) := by
  refine ⟨groundingOf?_eq_none, fun hlength => ?_, fun facts' hperm =>
    ⟨exists_groundingOf?_of_perm hperm.symm, exists_groundingOf?_of_perm hperm⟩⟩
  have hplaces : (List.finRange facts.length).length = a.preconditions.length := by
    rw [List.length_finRange, hlength]
  have hall : (List.finRange facts.length).map facts.get = facts := List.map_get_finRange facts
  have hleast : ∀ g, a.groundingOf? facts = some g →
      ∃ is, IsLeast {is | a.MatchesAt facts.get (List.finRange facts.length) is} is ∧
        is.map facts.get = g.matched := fun g hg =>
    exists_isLeast_of_groundingOf? (List.pairwise_lt_finRange _) hplaces (hall.symm ▸ hg)
  have hexists : ∀ is, a.MatchesAt facts.get (List.finRange facts.length) is →
      ∃ g, a.groundingOf? facts = some g := fun is his =>
    hall ▸ exists_groundingOf?_of_matchesAt hplaces his
  refine ⟨⟨?_, ?_⟩, fun g => ⟨hleast g, ?_⟩, fun is his => hall ▸ his.passesTests hplaces⟩
  · rintro ⟨g, hg⟩
    obtain ⟨is, his, -⟩ := hleast g hg
    exact ⟨is, his.1⟩
  · rintro ⟨is, his⟩
    exact hexists is his
  · rintro ⟨is, his, hmatched⟩
    obtain ⟨g', hg'⟩ := hexists is his.1
    obtain ⟨is', his', hmatched'⟩ := hleast g' hg'
    -- There is one least sequence of places.
    obtain rfl : is = is' := his.unique his'
    obtain ⟨ms⟩ := g
    obtain ⟨ms'⟩ := g'
    exact hg'.trans (congrArg some (congrArg Grounding.mk (hmatched'.symm.trans hmatched)))

end Candidates

/-- Two steps in a row, the second link first: the order of the facts matches only after the first
choice has been taken back. -/
theorem walk_grounding_is_first_arrangement :
    let twice : Action := { Walk.step with preconditions :=
      [Walk.link (Walk.free "?a") (Walk.free "?b"), Walk.link (Walk.free "?b") (Walk.free "?c")] }
    let ab := Walk.link (Walk.place "a") (Walk.place "b")
    let bc := Walk.link (Walk.place "b") (Walk.place "c")
    twice.groundingOf? [ab] = none ∧ twice.groundingOf? [bc, ab] = some ⟨[ab, bc]⟩ ∧
      IsLeast {is | twice.MatchesAt [bc, ab].get (List.finRange 2) is} [1, 0] ∧
      twice.PassesTests [bc, ab] ∧ ∃ g, twice.groundingOf? [ab, bc] = some g := by
  intro twice ab bc
  obtain ⟨hnone, -, -⟩ := grounding_is_first_arrangement twice [ab]
  obtain ⟨-, hall, hperm⟩ := grounding_is_first_arrangement twice [bc, ab]
  obtain ⟨-, hfirst, htests⟩ := hall rfl
  have hg : twice.groundingOf? [bc, ab] = some ⟨[ab, bc]⟩ := by rfl
  obtain ⟨is, hleast, hmatched⟩ := (hfirst ⟨[ab, bc]⟩).mp hg
  have hdistinct : [bc, ab].Nodup := by decide
  obtain rfl : is = [1, 0] :=
    List.map_injective_iff.mpr (List.nodup_iff_injective_get.mp hdistinct) hmatched
  refine ⟨hnone (by decide), hg, hleast, htests _ hleast.1, ?_⟩
  exact (hperm _ (List.Perm.swap _ _ _)).mpr ⟨_, hg⟩

end ClassicalPlanning
