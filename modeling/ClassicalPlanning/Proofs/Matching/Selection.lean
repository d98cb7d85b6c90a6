/-
Choosing from lists.

What can be chosen from a list depends on the list in a simple way: a longer list offers more
(`combinations_sublist`), the image of a list offers the images (`combinations_map`), choices
that keep to some of the elements are the choices from these (`filter_combinations`), and a
list without repetition offers nothing twice (`nodup_combinations`).  From an ascending list,
such as the places of a state, the ascending sequences are chosen, in lexicographic order
(`pairwise_lt_combinations`, `mem_combinations_finRange`), and there are as many of them as the
binomial coefficient says (`length_combinations`).
-/
import ClassicalPlanning.Matching.Grounding
import Mathlib.Data.List.Lex
import Mathlib.Data.List.Nodup
import Mathlib.Data.List.Sort
import Mathlib.Data.Nat.Choose.Basic

namespace ClassicalPlanning

variable {α β : Type}

/-! ## Lists that are related -/

lemma combinations_sublist {l m : List α} (h : l.Sublist m) (k : ℕ) :
    (combinations k l).Sublist (combinations k m) := by
  induction h generalizing k with
  | slnil => exact List.Sublist.refl _
  | cons a _ ih =>
    cases k with
    | zero => simp [combinations]
    | succ k => exact (ih (k + 1)).trans (List.sublist_append_right _ _)
  | cons_cons a _ ih =>
    cases k with
    | zero => simp [combinations]
    | succ k => exact ((ih k).map _).append (ih (k + 1))

lemma combinations_map (f : α → β) (l : List α) (k : ℕ) :
    combinations k (l.map f) = (combinations k l).map (List.map f) := by
  induction l generalizing k with
  | nil => cases k <;> rfl
  | cons a l ih =>
    cases k with
    | zero => rfl
    | succ k => simp [combinations, ih]

lemma picks_map (f : α → β) (l : List α) :
    picks (l.map f) = (picks l).map (Prod.map f (List.map f)) := by
  induction l with
  | nil => rfl
  | cons a l ih => simp [picks, ih]

lemma nodup_combinations {l : List α} (h : l.Nodup) (k : ℕ) : (combinations k l).Nodup := by
  induction l generalizing k with
  | nil => cases k <;> simp [combinations]
  | cons a l ih =>
    obtain ⟨ha, hl⟩ := List.nodup_cons.mp h
    cases k with
    | zero => simp [combinations]
    | succ k =>
      have hfirst : ((combinations k l).map (a :: ·)).Nodup :=
        (ih hl k).map (List.cons_injective)
      refine hfirst.append (ih hl (k + 1)) fun s hs hs' => ?_
      -- The choices with `a` differ from those without it.
      obtain ⟨r, -, rfl⟩ := List.mem_map.mp hs
      have hsub : (a :: r).Sublist l := (mem_combinations.mp hs').1
      exact ha (hsub.subset List.mem_cons_self)

lemma filter_combinations (p : α → Bool) (l : List α) (k : ℕ) :
    (combinations k l).filter (fun s => s.all p) = combinations k (l.filter p) := by
  induction l generalizing k with
  | nil => cases k <;> simp [combinations]
  | cons a l ih =>
    cases k with
    | zero => simp [combinations]
    | succ k =>
      cases ha : p a with
      | true =>
        have hcomp : (fun s : List α => s.all p) ∘ (a :: ·) = fun s => s.all p := by
          funext s
          simp [ha]
        rw [List.filter_cons_of_pos ha, combinations, combinations, List.filter_append,
          List.filter_map, hcomp, ih, ih]
      | false =>
        have hcomp : (fun s : List α => s.all p) ∘ (a :: ·) = fun _ => false := by
          funext s
          simp [ha]
        rw [List.filter_cons_of_neg (by simp [ha]), combinations, List.filter_append,
          List.filter_map, hcomp, ih, List.filter_false, List.map_nil, List.nil_append]

/-! ## Taking out one element -/

@[simp] lemma map_fst_picks (l : List α) : (picks l).map Prod.fst = l := by
  induction l with
  | nil => rfl
  | cons b l ih => simpa [picks, Function.comp_def] using ih

lemma sublist_of_mem_picks {l rest : List α} {a : α} (h : (a, rest) ∈ picks l) : rest.Sublist l := by
  induction l generalizing rest with
  | nil => simp [picks] at h
  | cons b l ih =>
    simp only [picks, List.mem_cons, List.mem_map, Prod.mk.injEq, Prod.exists] at h
    rcases h with ⟨-, rfl⟩ | ⟨c, r, hmem, rfl, rfl⟩
    · exact List.sublist_cons_self b rest
    · exact (ih hmem).cons_cons b

/-! ## Counting and ordering choices -/

lemma length_combinations (k : ℕ) (l : List α) :
    (combinations k l).length = l.length.choose k := by
  induction l generalizing k with
  | nil => cases k <;> rfl
  | cons a l ih =>
    cases k with
    | zero => simp [combinations]
    | succ k => simp [combinations, ih, Nat.choose_succ_succ]

/-- Each factor in turn is taken in and divided out again without remainder. -/
lemma binomial_eq_choose (n k : ℕ) : binomial n k = n.choose k := by
  induction k with
  | zero => simp [binomial]
  | succ k ih =>
    have hstep : binomial n (k + 1) = binomial n k * (n - k) / (k + 1) := by
      simp [binomial, List.range_succ]
    rw [hstep, ih, ← Nat.choose_succ_right_eq, Nat.mul_div_cancel _ k.succ_pos]

/-- Choices from an ascending list come in lexicographic order. -/
lemma pairwise_lt_combinations [LinearOrder α] {l : List α} (h : l.Pairwise (· < ·)) (k : ℕ) :
    (combinations k l).Pairwise (· < ·) := by
  induction l generalizing k with
  | nil => cases k <;> simp [combinations]
  | cons a l ih =>
    obtain ⟨ha, hl⟩ := List.pairwise_cons.mp h
    cases k with
    | zero => simp [combinations]
    | succ k =>
      refine List.pairwise_append.mpr ⟨?_, ih hl (k + 1), fun s hs t ht => ?_⟩
      · exact List.pairwise_map.mpr ((ih hl k).imp List.Lex.cons)
      -- The choices with `a` come before those without it, which begin with a later element.
      · obtain ⟨r, -, rfl⟩ := List.mem_map.mp hs
        obtain ⟨hsub, hlength⟩ := mem_combinations.mp ht
        obtain _ | ⟨b, t⟩ := t
        · simp at hlength
        · exact List.Lex.rel (ha b (hsub.subset List.mem_cons_self))

/-- The choices from all places are the ascending sequences of places. -/
lemma mem_combinations_finRange {n k : ℕ} {is : List (Fin n)} :
    is ∈ combinations k (List.finRange n) ↔ is.Pairwise (· < ·) ∧ is.length = k := by
  rw [mem_combinations, and_congr_left_iff]
  rintro -
  constructor
  · intro hsub
    exact (List.pairwise_lt_finRange n).sublist hsub
  · intro his
    have hsubset : is ⊆ List.finRange n := fun i _ => List.mem_finRange i
    exact List.sublist_of_subperm_of_sortedLE (List.subperm_of_subset his.nodup hsubset)
      his.sortedLT.sortedLE (List.pairwise_lt_finRange n).sortedLT.sortedLE

end ClassicalPlanning
