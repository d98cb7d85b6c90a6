/-
Choosing from a list.

`combinations k l` are the sublists of `l` of length `k`, in the order of the positions
that they occupy.  `selections key keys l` are those of them whose elements have the given
keys, in some order; they are found without going through the others, which are often far
more.  `picks l` are the ways to take one element out of `l`, in the order of its position.
-/

namespace ClassicalPlanning

variable {α κ : Type} [DecidableEq κ]

/-- The sublists of length `k`, in lexicographic order of their positions. -/
def combinations : Nat → List α → List (List α)
  | 0, _ => [[]]
  | _ + 1, [] => []
  | k + 1, a :: l => (combinations k l).map (a :: ·) ++ combinations (k + 1) l

/-- The number of ways to choose `k` things out of `n`. -/
def binomial (n k : Nat) : Nat :=
  (List.range k).foldl (fun ways i => ways * (n - i) / (i + 1)) 1

/-- Whether at least `n` elements pass a test; the list is read no further than it takes
to tell. -/
def hasAtLeast (p : α → Bool) : Nat → List α → Bool
  | 0, _ => true
  | _ + 1, [] => false
  | n + 1, a :: l => if p a then hasAtLeast p n l else hasAtLeast p (n + 1) l

/-- The sublists whose elements have the given keys, in some order.  An element is passed
over only if there are enough of its key behind it. -/
def sublistsWithKeys (key : α → κ) : List κ → List α → List (List α)
  | [], _ => [[]]
  | _ :: _, [] => []
  | k :: ks, a :: l =>
    if key a ∈ k :: ks then
      (sublistsWithKeys key ((k :: ks).erase (key a)) l).map (a :: ·) ++
        if hasAtLeast (key · = key a) ((k :: ks).count (key a)) l then
          sublistsWithKeys key (k :: ks) l
        else []
    else sublistsWithKeys key (k :: ks) l

/-- The sublists whose elements have the given keys, in some order, if there are enough
elements of each key. -/
def selections (key : α → κ) (keys : List κ) (l : List α) : List (List α) :=
  if ∀ k ∈ keys, hasAtLeast (key · = k) (keys.count k) l then sublistsWithKeys key keys l
  else []

/-- Each element with the list of the others. -/
def picks : List α → List (α × List α)
  | [] => []
  | a :: l => (a, l) :: (picks l).map fun (b, rest) => (b, a :: rest)

theorem mem_combinations {k : Nat} {l s : List α} :
    s ∈ combinations k l ↔ s.Sublist l ∧ s.length = k := by
  induction l generalizing k s with
  | nil => cases k <;> cases s <;> simp [combinations]
  | cons a l ih =>
    cases k with
    | zero => cases s <;> simp [combinations]
    | succ k =>
      simp only [combinations, List.mem_append, List.mem_map, ih, List.sublist_cons_iff]
      constructor
      · rintro (⟨r, ⟨hr, hk⟩, rfl⟩ | ⟨hs, hk⟩)
        · exact ⟨.inr ⟨r, rfl, hr⟩, by simp [hk]⟩
        · exact ⟨.inl hs, hk⟩
      · rintro ⟨hs | ⟨r, rfl, hr⟩, hk⟩
        · exact .inr ⟨hs, hk⟩
        · exact .inl ⟨r, ⟨hr, by simpa using hk⟩, rfl⟩

theorem hasAtLeast_iff {p : α → Bool} {n : Nat} {l : List α} :
    hasAtLeast p n l ↔ n ≤ l.countP p := by
  induction l generalizing n with
  | nil => cases n <;> simp [hasAtLeast]
  | cons a l ih =>
    cases n with
    | zero => simp [hasAtLeast]
    | succ n => by_cases ha : p a <;> simp [hasAtLeast, ha, ih]

/-- Without enough elements of one of the keys there is no sublist with the keys. -/
theorem filter_combinations_eq_nil {key : α → κ} {keys : List κ} {l : List α} {k : κ} (n : Nat)
    (h : ¬ hasAtLeast (key · = k) (keys.count k) l) :
    (combinations n l).filter (fun s => (s.map key).isPerm keys) = [] := by
  refine List.filter_eq_nil_iff.2 fun s hs hperm => h (hasAtLeast_iff.2 ?_)
  have hsub := (mem_combinations.1 hs).1
  have hcount : (s.map key).count k = keys.count k := (List.isPerm_iff.1 hperm).count_eq k
  have hle : s.countP (key · = k) ≤ l.countP (key · = k) := hsub.countP_le
  have hmap : (s.map key).count k = s.countP (key · = k) := by
    rw [List.count, List.countP_map]
    rfl
  exact hcount ▸ hmap ▸ hle

theorem sublistsWithKeys_eq_filter (key : α → κ) (keys : List κ) (l : List α) :
    sublistsWithKeys key keys l =
      (combinations keys.length l).filter fun s => (s.map key).isPerm keys := by
  induction l generalizing keys with
  | nil =>
    cases keys with
    | nil => rfl
    | cons k ks => rfl
  | cons a l ih =>
    cases keys with
    | nil => rfl
    | cons k ks =>
      simp only [sublistsWithKeys, List.length_cons, combinations, List.filter_append,
        List.filter_map, ih]
      -- The sublists that begin with `a`, and those that pass over it.
      have htake : (fun s => (s.map key).isPerm (k :: ks)) ∘ (a :: ·) = fun s =>
          decide (key a ∈ k :: ks) && (s.map key).isPerm ((k :: ks).erase (key a)) := by
        funext s
        simp [List.isPerm, List.contains_eq_mem]
      rw [htake]
      by_cases ha : key a ∈ k :: ks
      · have hlength : ((k :: ks).erase (key a)).length = ks.length := by
          simp [List.length_erase_of_mem ha]
        simp only [ha, if_true, hlength, decide_true, Bool.true_and]
        congr 1
        split
        next => rfl
        next hfew => exact (filter_combinations_eq_nil _ hfew).symm
      · simp [ha]

/-- The selections are the sublists of the right length that pass the test. -/
theorem selections_eq_filter (key : α → κ) (keys : List κ) (l : List α) :
    selections key keys l =
      (combinations keys.length l).filter fun s => (s.map key).isPerm keys := by
  unfold selections
  split
  next => exact sublistsWithKeys_eq_filter key keys l
  next h =>
    obtain ⟨k, hk⟩ := Classical.not_forall.1 h
    exact (filter_combinations_eq_nil _ fun henough => hk fun _ => henough).symm

theorem perm_of_mem_picks {l rest : List α} {a : α} (h : (a, rest) ∈ picks l) :
    (a :: rest).Perm l := by
  induction l generalizing a rest with
  | nil => simp [picks] at h
  | cons b l ih =>
    simp only [picks, List.mem_cons, List.mem_map, Prod.mk.injEq, Prod.exists] at h
    rcases h with ⟨rfl, rfl⟩ | ⟨c, r, hmem, rfl, rfl⟩
    · exact .refl _
    · exact (List.Perm.swap _ _ _).trans ((ih hmem).cons _)

end ClassicalPlanning
