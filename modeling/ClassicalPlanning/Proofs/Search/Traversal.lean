/-
Breadth-first traversal of a tree.

A tree is given by its root and by the list of the children of each of its nodes; it may
be infinite, and a node may occur in it several times.  Its tiers are the lists of the
nodes of one depth, from left to right, and `sweep k` is the list of the first `k` tiers.

A first-in first-out queue that begins with the root, and that takes in the children of
every node that it gives out, walks through these lists.  The main results are

* `Traversed.exists_sweep`: what the queue has given out and what it holds together are
  an initial part of a sweep;
* `Traversed.mem_of_mem_tier`: a queue that has run empty has given out the whole tree;
* `Traversed.length_lt_sweep`: as long as some node of a tier has not been given out,
  fewer nodes have been given out than there are down to that tier;
* `Traversed.exists_tier_of_cons`: the queue holds the rest of a tier and, behind it, the
  children of the nodes of that tier that have been given out;
* `Traversed.exists_eq_sweep`: a queue that has run empty has given out a sweep with all tiers
  that there are.
-/
import Mathlib.Data.List.Infix
import Mathlib.Data.List.Perm.Basic
import Mathlib.Tactic.Lemma

namespace ClassicalPlanning

section Tiers

variable {α β : Type} (children : α → List α) (root : α)

/-- The nodes of depth `k`, from left to right. -/
def tier : ℕ → List α
  | 0 => [root]
  | k + 1 => (tier k).flatMap children

/-- The first `k` tiers, one behind the other. -/
def sweep (k : ℕ) : List α :=
  (List.range k).flatMap (tier children root)

lemma sweep_succ (k : ℕ) :
    sweep children root (k + 1) = sweep children root k ++ tier children root k := by
  simp [sweep, List.range_succ]

/-- A sweep is the root, followed by the children of the sweep that is one tier shorter. -/
lemma sweep_succ_eq_cons (k : ℕ) :
    sweep children root (k + 1) = root :: (sweep children root k).flatMap children := by
  induction k with
  | zero => simp [sweep, tier]
  | succ k ih =>
    calc sweep children root (k + 1 + 1)
        = (root :: (sweep children root k).flatMap children)
            ++ (tier children root k).flatMap children := by rw [sweep_succ, ih, tier]
      _ = root :: (sweep children root (k + 1)).flatMap children := by
        rw [sweep_succ, List.flatMap_append, List.cons_append]

variable {children root}

lemma sweep_prefix_sweep {j k : ℕ} (h : j ≤ k) :
    sweep children root j <+: sweep children root k := by
  induction h with
  | refl => exact List.prefix_rfl
  | step _ ih =>
    rw [sweep_succ]
    exact ih.trans (List.prefix_append _ _)

lemma mem_sweep {k : ℕ} {x : α} :
    x ∈ sweep children root k ↔ ∃ j < k, x ∈ tier children root j := by
  simp [sweep]

/-- Where a tree has ended, longer sweeps add nothing. -/
lemma sweep_eq_of_tier_eq_nil {j k : ℕ} (h : ∀ i, k ≤ i → tier children root i = [])
    (hj : k ≤ j) : sweep children root j = sweep children root k := by
  induction hj with
  | refl => rfl
  | @step j hj ih => rw [sweep_succ, ih, h j hj, List.append_nil]

lemma sweep_eq_sweep {j k : ℕ} (hj : ∀ i, j ≤ i → tier children root i = [])
    (hk : ∀ i, k ≤ i → tier children root i = []) :
    sweep children root j = sweep children root k := by
  rcases Nat.le_total j k with hjk | hkj
  · exact (sweep_eq_of_tier_eq_nil hj hjk).symm
  · exact sweep_eq_of_tier_eq_nil hk hkj

lemma length_sweep_le_of_tier_eq_nil {k : ℕ} (h : ∀ i, k ≤ i → tier children root i = []) (j : ℕ) :
    (sweep children root j).length ≤ (sweep children root k).length := by
  rcases Nat.le_total j k with hj | hj
  · exact (sweep_prefix_sweep hj).length_le
  · rw [sweep_eq_of_tier_eq_nil h hj]

/-- The tiers of a tree whose nodes are the images of those of another tree. -/
lemma tier_map {children' : β → List β} {root' : β} {f : β → α} (hroot : f root' = root)
    (hchildren : ∀ y, (children' y).map f = children (f y)) (k : ℕ) :
    (tier children' root' k).map f = tier children root k := by
  induction k with
  | zero => simp [tier, hroot]
  | succ k ih =>
    rw [tier, tier, ← ih, List.map_flatMap, List.flatMap_map]
    simp only [hchildren]

lemma sweep_map {children' : β → List β} {root' : β} {f : β → α} (hroot : f root' = root)
    (hchildren : ∀ y, (children' y).map f = children (f y)) (k : ℕ) :
    (sweep children' root' k).map f = sweep children root k := by
  simp only [sweep, List.map_flatMap, tier_map hroot hchildren]

/-- The tiers of trees that differ in the order of the children. -/
lemma tier_perm {children' : α → List α} (h : ∀ x, (children x).Perm (children' x)) (k : ℕ) :
    (tier children root k).Perm (tier children' root k) := by
  induction k with
  | zero => exact .refl _
  | succ k ih => exact (ih.flatMap_right children).trans (List.Perm.flatMap_left _ fun x _ => h x)

lemma sweep_perm {children' : α → List α} (h : ∀ x, (children x).Perm (children' x)) (k : ℕ) :
    (sweep children root k).Perm (sweep children' root k) :=
  List.Perm.flatMap_left _ fun j _ => tier_perm h j

end Tiers

/-- A queue that began with the root has given out the nodes `visited`, oldest first, and
holds the nodes `waiting`. -/
inductive Traversed {α : Type} (children : α → List α) (root : α) : List α → List α → Prop
  /-- At the start the root is waiting. -/
  | start : Traversed children root [] [root]
  /-- The queue gives out its oldest node and takes in the children of that node. -/
  | take {visited waiting : List α} {node : α}
      (h : Traversed children root visited (node :: waiting)) :
      Traversed children root (visited ++ [node]) (waiting ++ children node)

namespace Traversed

variable {α : Type} {children : α → List α} {root : α} {visited waiting : List α}

/-- All nodes are the root and the children of those that have been given out. -/
lemma append_eq (h : Traversed children root visited waiting) :
    visited ++ waiting = root :: visited.flatMap children := by
  induction h with
  | start => simp
  | @take visited waiting node _ ih =>
    calc visited ++ [node] ++ (waiting ++ children node)
        = (visited ++ node :: waiting) ++ children node := by simp
      _ = root :: (visited ++ [node]).flatMap children := by rw [ih]; simp

/-- The queue goes through the tree tier by tier, each tier from left to right. -/
lemma exists_sweep (h : Traversed children root visited waiting) :
    ∃ k, visited ++ waiting <+: sweep children root k := by
  induction h with
  | start => exact ⟨1, by simp [sweep, tier]⟩
  | @take visited waiting node h ih =>
    -- The children of an initial part of a sweep are an initial part of the sweep that is one
    -- tier longer.
    obtain ⟨k, hk⟩ := ih
    refine ⟨k + 1, ?_⟩
    have hvisited : visited ++ [node] <+: sweep children root k :=
      List.IsPrefix.trans ⟨waiting, by simp⟩ hk
    obtain ⟨rest, hrest⟩ := hvisited
    have hsplit : (visited ++ [node] ++ rest).flatMap children
        = (visited ++ [node]).flatMap children ++ rest.flatMap children := List.flatMap_append
    rw [(take h).append_eq, sweep_succ_eq_cons, ← hrest, hsplit]
    exact ⟨rest.flatMap children, by simp⟩

/-- What holds of the root and passes from each node to its children holds of every node
that the queue has seen. -/
lemma forall_mem {P : α → Prop} (h : Traversed children root visited waiting) (hroot : P root)
    (hchild : ∀ x, P x → ∀ y ∈ children x, P y) : ∀ x ∈ visited ++ waiting, P x := by
  induction h with
  | start => simpa using hroot
  | @take visited waiting node h ih =>
    intro x hx
    have hnode : P node := ih node (by simp)
    simp only [List.mem_append, List.mem_singleton] at hx
    rcases hx with (hx | rfl) | hx | hx
    · exact ih x (by simp [hx])
    · exact hnode
    · exact ih x (by simp [hx])
    · exact hchild node hnode x hx

/-- When no node is waiting any more, the whole tree has been given out. -/
lemma mem_of_mem_tier (h : Traversed children root visited []) {k : ℕ} {x : α}
    (hx : x ∈ tier children root k) : x ∈ visited := by
  -- What has been given out contains the root and is closed under children.
  have heq : visited = root :: visited.flatMap children := by simpa using h.append_eq
  induction k generalizing x with
  | zero =>
    rw [heq, List.mem_singleton.mp hx]
    exact List.mem_cons_self
  | succ k ih =>
    obtain ⟨y, hy, hxy⟩ := List.mem_flatMap.mp hx
    rw [heq]
    exact List.mem_cons_of_mem _ (List.mem_flatMap.mpr ⟨y, ih hy, hxy⟩)

/-- Before a node of depth `d` is given out, only nodes down to that depth have been. -/
lemma length_lt_sweep (h : Traversed children root visited waiting) {d : ℕ} {x : α}
    (hx : x ∈ tier children root d) (hvisited : x ∉ visited) :
    visited.length < (sweep children root (d + 1)).length := by
  obtain ⟨k, hk⟩ := h.exists_sweep
  by_contra hle
  have hsweep : sweep children root (d + 1) <+: visited :=
    List.prefix_of_prefix_length_le (sweep_prefix_sweep (Nat.le_max_right k (d + 1)))
      (((List.prefix_append _ _).trans hk).trans (sweep_prefix_sweep (Nat.le_max_left k (d + 1))))
      (by omega)
  exact hvisited (hsweep.subset (mem_sweep.mpr ⟨d, by omega, hx⟩))

/-- What has been given out are some tiers and a part of the next one, which the nodes that wait
begin by completing; behind these are the children of the part. -/
lemma exists_tier (h : Traversed children root visited waiting) :
    ∃ d done rest, tier children root d = done ++ rest ∧ visited = sweep children root d ++ done ∧
      waiting = rest ++ done.flatMap children := by
  induction h with
  | start => exact ⟨0, [], [root], rfl, rfl, rfl⟩
  | @take visited waiting node _ ih =>
    obtain ⟨d, done, rest, htier, hvisited, hwaiting⟩ := ih
    cases rest with
    | cons n rest =>
      obtain ⟨rfl, rfl⟩ := List.cons.inj hwaiting
      refine ⟨d, done ++ [node], rest, ?_, ?_, ?_⟩
      · simp [htier]
      · simp [hvisited]
      · simp
    -- The tier has been given out, and `node` is the first node of the next one.
    | nil =>
      rw [List.append_nil] at htier
      rw [List.nil_append, ← htier] at hwaiting
      refine ⟨d + 1, [node], waiting, hwaiting.symm, ?_, ?_⟩
      · rw [hvisited, ← htier, ← sweep_succ]
      · simp

/-- The same where some node waits: then the tier is not complete. -/
lemma exists_tier_of_cons {node : α} (h : Traversed children root visited (node :: waiting)) :
    ∃ d done rest, tier children root d = done ++ node :: rest ∧
      visited = sweep children root d ++ done ∧ waiting = rest ++ done.flatMap children := by
  obtain ⟨d, done, rest, htier, hvisited, hwaiting⟩ := h.exists_tier
  cases rest with
  | cons n rest =>
    obtain ⟨rfl, rfl⟩ := List.cons.inj hwaiting
    exact ⟨d, done, rest, htier, hvisited, rfl⟩
  | nil =>
    rw [List.append_nil] at htier
    rw [List.nil_append, ← htier] at hwaiting
    refine ⟨d + 1, [], waiting, hwaiting.symm, ?_, by simp⟩
    rw [hvisited, ← htier, ← sweep_succ, List.append_nil]

/-- When no node is waiting any more, the tree has ended, and all of it has been given out. -/
lemma exists_eq_sweep (h : Traversed children root visited []) :
    ∃ k, visited = sweep children root k ∧ ∀ j, k ≤ j → tier children root j = [] := by
  have heq : visited = root :: visited.flatMap children := by simpa using h.append_eq
  -- Every sweep is an initial part of what has been given out.
  have hall : ∀ j, sweep children root j <+: visited := by
    intro j
    induction j with
    | zero => simp [sweep]
    | succ j ih =>
      obtain ⟨rest, hrest⟩ := ih
      refine ⟨rest.flatMap children, ?_⟩
      rw [sweep_succ_eq_cons, List.cons_append, ← List.flatMap_append, hrest, ← heq]
  obtain ⟨k, hk⟩ := h.exists_sweep
  rw [List.append_nil] at hk
  have hsweep : ∀ j, k ≤ j → sweep children root j = visited := fun j hj =>
    (hall j).eq_of_length_le (hk.trans (sweep_prefix_sweep hj)).length_le
  refine ⟨k, (hsweep k le_rfl).symm, fun j hj => ?_⟩
  have hsucc := hsweep (j + 1) (by omega)
  rwa [sweep_succ, hsweep j hj, List.append_right_eq_self] at hsucc

end Traversed

end ClassicalPlanning
