/-
The search tree of a problem.

The root of the tree is the initial state.  A node has one child for each choice of an
action of the domain and of one of its groundings, in the order of the domain and, for
one action, in the order of the groundings; a choice whose application is at fault leads
nowhere.  The way to a node is the list of the choices that lead to it from the root, and
`Problem.nodeAt?` follows a way.

The nodes are those that a search sees, so they are marked as taken up.

The tree is given to `tier` and `sweep` in two forms, with ways (`Problem.forks`) and
without (`Node.children`).  The main results are

* `mem_tier_forks`: a tier holds the nodes whose ways have its length;
* `pairwise_sweep_forks`: sweeps are in the order of the ways, shorter ways first and ways
  of one length in lexicographic order;
* `exists_sweep_offspring`: a level cap makes the sweeps end, but does not change them.
-/
import ClassicalPlanning.Proofs.Outcome
import ClassicalPlanning.Proofs.Search.Traversal
import ClassicalPlanning.Search.BreadthFirst
import Mathlib.Data.List.Shortlex

namespace ClassicalPlanning

/-- A way to go on at a node: the place of an action in the domain, and the place of a
grounding among the groundings of that action. -/
structure Choice where
  /-- The place of the action. -/
  action : ℕ
  /-- The place of the grounding. -/
  grounding : ℕ
deriving DecidableEq, Repr

/-- The order in which choices are tried: by the action, then by the grounding. -/
def Choice.Before (c d : Choice) : Prop :=
  c.action < d.action ∨ c.action = d.action ∧ c.grounding < d.grounding

namespace Node

/-- The node that a choice leads to. -/
def child? (actions : List Action) (n : Node) (c : Choice) : Option Node := do
  let a ← actions[c.action]?
  let g ← (a.groundings n.state)[c.grounding]?
  let child ← (n.apply ⟨a, g⟩).toOption
  return child.takeUp

/-- The children of a node, each with the choice that leads to it. -/
def branches (actions : List Action) (n : Node) : List (Choice × Node) :=
  actions.zipIdx.flatMap fun (a, i) =>
    (a.groundings n.state).zipIdx.filterMap fun (g, j) =>
      (n.apply ⟨a, g⟩).toOption.map fun child => (⟨i, j⟩, child.takeUp)

/-- The children of a node. -/
def children (actions : List Action) (n : Node) : List Node :=
  (n.branches actions).map Prod.snd

end Node

namespace Problem

/-- The root of the search tree. -/
def root (p : Problem) : Node :=
  (Node.root p).takeUp

/-- The node at the end of a way. -/
def nodeAt? (p : Problem) (way : List Choice) : Option Node :=
  way.foldlM (Node.child? p.domain.actions) p.root

/-- The search tree has this node. -/
def HasNode (p : Problem) (n : Node) : Prop :=
  ∃ way, p.nodeAt? way = some n

/-- The children of a node, each with the way to it. -/
def forks (p : Problem) : List Choice × Node → List (List Choice × Node)
  | (way, n) => (n.branches p.domain.actions).map fun (c, child) => (way ++ [c], child)

/-- The number of nodes of a level. -/
def width (p : Problem) (level : ℕ) : ℕ :=
  (tier (Node.children p.domain.actions) p.root level).length

/-- The children that a search under the given limits generates at a node. -/
def offspring (p : Problem) (limits : SearchLimits) (n : Node) : List Node :=
  if limits.caps n.level then [] else n.children p.domain.actions

end Problem

@[simp] lemma Node.level_takeUp (n : Node) : n.takeUp.level = n.level := rfl

/-! ## Moves -/

section Moves

variable {actions : List Action} {n child : Node} {c : Choice} {m : Move}

lemma mem_moves_survey :
    m ∈ (n.survey actions).moves ↔
      m.action ∈ actions ∧ m.grounding ∈ m.action.groundings n.state := by
  obtain ⟨a, g⟩ := m
  simp only [Survey.moves, Node.survey, List.flatMap_map, List.mem_flatMap, List.mem_map,
    Move.mk.injEq]
  constructor
  · rintro ⟨b, hb, h, hh, rfl, rfl⟩
    exact ⟨hb, hh⟩
  · rintro ⟨ha, hg⟩
    exact ⟨a, ha, g, hg, rfl, rfl⟩

/-- What is known of the node that a move leads to. -/
lemma apply_eq_ok_iff :
    n.apply m = .ok child ↔ ∃ effects state, m.action.effectsFor m.grounding = .ok effects ∧
      n.state.successor m.action.name m.grounding.matched effects = .ok state ∧
      child = { state, path := m :: n.path, level := n.level + 1
                level_eq := congrArg (· + 1) n.level_eq } := by
  unfold Node.apply
  simp only [bind_eq_ok_iff, pure, Except.pure, Except.ok.injEq]
  constructor
  · rintro ⟨effects, heffects, state, hstate, rfl⟩
    exact ⟨effects, state, heffects, hstate, rfl⟩
  · rintro ⟨effects, state, heffects, hstate, rfl⟩
    exact ⟨effects, heffects, state, hstate, rfl⟩

lemma level_of_apply (h : n.apply m = .ok child) : child.level = n.level + 1 := by
  obtain ⟨effects, state, -, -, rfl⟩ := apply_eq_ok_iff.mp h
  rfl

/-! ## Branches -/

lemma child?_eq_some_iff :
    n.child? actions c = some child ↔ ∃ a g next, actions[c.action]? = some a ∧
      (a.groundings n.state)[c.grounding]? = some g ∧ n.apply ⟨a, g⟩ = .ok next ∧
      child = next.takeUp := by
  simp only [Node.child?, Option.bind_eq_bind, Option.bind_eq_some_iff, Option.pure_def,
    Option.some.injEq]
  constructor
  · rintro ⟨a, ha, g, hg, next, hnext, rfl⟩
    refine ⟨a, g, next, ha, hg, ?_, rfl⟩
    cases happly : n.apply ⟨a, g⟩ with
    | error fault => simp [happly, Except.toOption] at hnext
    | ok next' => simpa [happly, Except.toOption] using hnext
  · rintro ⟨a, g, next, ha, hg, hnext, rfl⟩
    exact ⟨a, ha, g, hg, next, by simp [hnext, Except.toOption], rfl⟩

lemma mem_branches : (c, child) ∈ n.branches actions ↔ n.child? actions c = some child := by
  obtain ⟨i, j⟩ := c
  simp only [Node.branches, Node.child?, List.mem_flatMap, List.mem_filterMap, Prod.exists,
    List.mem_zipIdx_iff_getElem?, Option.map_eq_some_iff, Prod.mk.injEq, Choice.mk.injEq,
    Option.bind_eq_bind, Option.bind_eq_some_iff, Option.pure_def, Option.some.injEq]
  constructor
  · rintro ⟨a, _, ha, g, _, hg, next, hnext, ⟨rfl, rfl⟩, rfl⟩
    exact ⟨a, ha, g, hg, next, hnext, rfl⟩
  · rintro ⟨a, ha, g, hg, next, hnext, rfl⟩
    exact ⟨a, i, ha, g, j, hg, next, hnext, ⟨rfl, rfl⟩, rfl⟩

lemma pairwise_snd_zipIdx {α : Type} (l : List α) (k : ℕ) :
    (l.zipIdx k).Pairwise fun x y => x.2 < y.2 := by
  induction l generalizing k with
  | nil => simp
  | cons a l ih =>
    rw [List.zipIdx_cons, List.pairwise_cons]
    exact ⟨fun x hx => List.le_snd_of_mem_zipIdx hx, ih (k + 1)⟩

/-- The children stand in the order of their choices. -/
lemma pairwise_branches (actions : List Action) (n : Node) :
    (n.branches actions).Pairwise fun x y => x.1.Before y.1 := by
  refine List.pairwise_flatMap.mpr ⟨fun (a, i) _ => ?_, ?_⟩
  -- Children by one action differ in the grounding, those by different actions in the action.
  · refine (pairwise_snd_zipIdx (a.groundings n.state) 0).filterMap _ ?_
    rintro ⟨g, j⟩ ⟨g', j'⟩ hj x hx y hy
    simp only [Option.map_eq_some_iff] at hx hy
    obtain ⟨next, -, rfl⟩ := hx
    obtain ⟨next', -, rfl⟩ := hy
    exact Or.inr ⟨rfl, hj⟩
  · refine (pairwise_snd_zipIdx actions 0).imp ?_
    rintro ⟨a, i⟩ ⟨a', i'⟩ hi x hx y hy
    simp only [List.mem_filterMap, Option.map_eq_some_iff] at hx hy
    obtain ⟨_, -, next, -, rfl⟩ := hx
    obtain ⟨_, -, next', -, rfl⟩ := hy
    exact Or.inl hi

/-- The children are the nodes that the moves lead to, in the order of the moves. -/
lemma children_eq_filterMap (actions : List Action) (n : Node) :
    n.children actions =
      (n.survey actions).moves.filterMap fun m => (n.apply m).toOption.map Node.takeUp := by
  rw [Node.children, Node.branches, Survey.moves, Node.survey, List.map_flatMap, List.flatMap_map,
    List.filterMap_flatMap]
  conv_rhs => rw [← List.zipIdx_map_fst 0 actions, List.flatMap_map]
  refine List.flatMap_congr fun (a, i) _ => ?_
  rw [List.map_filterMap, List.filterMap_map]
  conv_rhs => rw [← List.zipIdx_map_fst 0 (a.groundings n.state), List.filterMap_map]
  refine List.filterMap_congr fun (g, j) _ => ?_
  simp [Function.comp_def]

lemma mem_children :
    child ∈ n.children actions ↔
      ∃ m ∈ (n.survey actions).moves, ∃ next, n.apply m = .ok next ∧ child = next.takeUp := by
  rw [children_eq_filterMap, List.mem_filterMap]
  refine exists_congr fun m => and_congr_right fun _ => ?_
  cases n.apply m with
  | error fault => simp [Except.toOption]
  | ok next => simp [Except.toOption, eq_comm]

lemma level_of_mem_children (h : child ∈ n.children actions) : child.level = n.level + 1 := by
  obtain ⟨m, -, next, hnext, rfl⟩ := mem_children.mp h
  rw [Node.level_takeUp, level_of_apply hnext]

end Moves

/-! ## Ways -/

section Ways

variable {p : Problem} {way : List Choice} {n : Node}

lemma nodeAt?_concat (way : List Choice) (c : Choice) :
    p.nodeAt? (way ++ [c]) = (p.nodeAt? way).bind fun n => n.child? p.domain.actions c := by
  simp [Problem.nodeAt?, List.foldlM_append]

lemma level_of_nodeAt? (h : p.nodeAt? way = some n) : n.level = way.length := by
  induction way using List.reverseRecOn generalizing n with
  | nil =>
    obtain rfl : p.root = n := by simpa [Problem.nodeAt?] using h
    rfl
  | append_singleton way c ih =>
    rw [nodeAt?_concat, Option.bind_eq_some_iff] at h
    obtain ⟨parent, hparent, hchild⟩ := h
    rw [level_of_mem_children (List.mem_map.mpr ⟨(c, n), mem_branches.mpr hchild, rfl⟩), ih hparent,
      List.length_append, List.length_singleton]

lemma hasNode_root (p : Problem) : p.HasNode p.root :=
  ⟨[], rfl⟩

lemma hasNode_of_mem_children {child : Node} (hn : p.HasNode n)
    (hchild : child ∈ n.children p.domain.actions) : p.HasNode child := by
  obtain ⟨way, hway⟩ := hn
  obtain ⟨⟨c, child⟩, hbranch, rfl⟩ := List.mem_map.mp hchild
  exact ⟨way ++ [c], by rw [nodeAt?_concat, hway, Option.bind_some, mem_branches.mp hbranch]⟩

/-- What holds of the root and passes from the nodes of the tree to their children holds of
every node of the tree. -/
lemma forall_hasNode {P : Node → Prop} (hroot : P p.root)
    (hchild : ∀ n, p.HasNode n → P n → ∀ child ∈ n.children p.domain.actions, P child) :
    ∀ n, p.HasNode n → P n := by
  rintro n ⟨way, hway⟩
  induction way using List.reverseRecOn generalizing n with
  | nil =>
    obtain rfl : p.root = n := by simpa [Problem.nodeAt?] using hway
    exact hroot
  | append_singleton way c ih =>
    rw [nodeAt?_concat, Option.bind_eq_some_iff] at hway
    obtain ⟨parent, hparent, hc⟩ := hway
    exact hchild parent ⟨way, hparent⟩ (ih parent hparent) n
      (List.mem_map.mpr ⟨(c, n), mem_branches.mpr hc, rfl⟩)

/-- The nodes of a tier, with their ways, are the nodes at the ends of the ways of its
length. -/
lemma mem_tier_forks {k : ℕ} :
    (way, n) ∈ tier p.forks ([], p.root) k ↔ way.length = k ∧ p.nodeAt? way = some n := by
  induction k generalizing way n with
  | zero =>
    rw [tier, List.mem_singleton, Prod.mk.injEq, List.length_eq_zero_iff]
    refine and_congr_right ?_
    rintro rfl
    simp [Problem.nodeAt?, eq_comm]
  | succ k ih =>
    simp only [tier, List.mem_flatMap, Problem.forks, List.mem_map, Prod.exists, Prod.mk.injEq, ih]
    constructor
    · rintro ⟨way, parent, ⟨hlength, hparent⟩, c, child, hchild, rfl, rfl⟩
      refine ⟨by simp [hlength], ?_⟩
      rw [nodeAt?_concat, hparent]
      exact mem_branches.mp hchild
    · rintro ⟨hlength, hn⟩
      obtain rfl | ⟨way, c, rfl⟩ := way.eq_nil_or_concat'
      · simp at hlength
      rw [nodeAt?_concat, Option.bind_eq_some_iff] at hn
      obtain ⟨parent, hparent, hchild⟩ := hn
      exact ⟨way, parent, ⟨by simpa using hlength, hparent⟩, c, n, mem_branches.mpr hchild, rfl, rfl⟩

/-- Lists of one length keep their lexicographic order when something is put behind them. -/
lemma lex_append_append {α : Type} {r : α → α → Prop} {s t : List α} (h : List.Lex r s t)
    (hlength : s.length = t.length) (u v : List α) : List.Lex r (s ++ u) (t ++ v) := by
  induction h with
  | nil => simp at hlength
  | rel hab => exact List.Lex.rel hab
  | cons _ ih => exact List.Lex.cons (ih (by simpa using hlength))

/-- In a tier the ways are in lexicographic order. -/
lemma pairwise_tier_forks (p : Problem) (k : ℕ) :
    (tier p.forks ([], p.root) k).Pairwise fun x y => List.Lex Choice.Before x.1 y.1 := by
  induction k with
  | zero => simp [tier]
  | succ k ih =>
    refine List.pairwise_flatMap.mpr ⟨?_, ?_⟩
    -- The ways to siblings differ in their last choices, those to cousins before.
    · rintro ⟨way, n⟩ -
      refine List.pairwise_map.mpr ((pairwise_branches p.domain.actions n).imp ?_)
      rintro ⟨c, child⟩ ⟨d, other⟩ hcd
      exact List.Lex.append_left _ (List.Lex.rel hcd) way
    · refine ih.imp_of_mem ?_
      rintro ⟨way, n⟩ ⟨way', n'⟩ hn hn' hlex x hx y hy
      obtain ⟨⟨c, child⟩, -, rfl⟩ := List.mem_map.mp hx
      obtain ⟨⟨d, other⟩, -, rfl⟩ := List.mem_map.mp hy
      refine lex_append_append hlex ?_ [c] [d]
      rw [(mem_tier_forks.mp hn).1, (mem_tier_forks.mp hn').1]

/-- In a sweep shorter ways stand before longer ones, and ways of one length in
lexicographic order. -/
lemma pairwise_sweep_forks (p : Problem) (k : ℕ) :
    (sweep p.forks ([], p.root) k).Pairwise fun x y => List.Shortlex Choice.Before x.1 y.1 := by
  refine List.pairwise_flatMap.mpr ⟨fun j _ => ?_, ?_⟩
  · refine (pairwise_tier_forks p j).imp_of_mem ?_
    rintro ⟨way, n⟩ ⟨way', n'⟩ hn hn' hlex
    refine List.Shortlex.of_lex ?_ hlex
    rw [(mem_tier_forks.mp hn).1, (mem_tier_forks.mp hn').1]
  · refine List.pairwise_lt_range.imp ?_
    rintro i j hij ⟨way, n⟩ hn ⟨way', n'⟩ hn'
    refine List.Shortlex.of_length_lt ?_
    rwa [(mem_tier_forks.mp hn).1, (mem_tier_forks.mp hn').1]

/-! ## Tiers without ways -/

variable (p) in
lemma map_tier_forks (k : ℕ) :
    (tier p.forks ([], p.root) k).map Prod.snd = tier (Node.children p.domain.actions) p.root k :=
  tier_map rfl (fun (way, n) => by simp [Problem.forks, Node.children]) k

variable (p) in
lemma map_sweep_forks (k : ℕ) :
    (sweep p.forks ([], p.root) k).map Prod.snd = sweep (Node.children p.domain.actions) p.root k :=
  sweep_map rfl (fun (way, n) => by simp [Problem.forks, Node.children]) k

lemma mem_tier_children {k : ℕ} :
    n ∈ tier (Node.children p.domain.actions) p.root k ↔ p.HasNode n ∧ n.level = k := by
  rw [← map_tier_forks, List.mem_map]
  constructor
  · rintro ⟨⟨way, n⟩, hn, rfl⟩
    obtain ⟨hlength, hway⟩ := mem_tier_forks.mp hn
    exact ⟨⟨way, hway⟩, by rw [level_of_nodeAt? hway, hlength]⟩
  · rintro ⟨⟨way, hway⟩, hlevel⟩
    exact ⟨(way, n), mem_tier_forks.mpr ⟨by rw [← level_of_nodeAt? hway, hlevel], hway⟩, rfl⟩

/-- In a sweep the levels never fall. -/
lemma pairwise_level_sweep (p : Problem) (k : ℕ) :
    (sweep (Node.children p.domain.actions) p.root k).Pairwise fun n n' => n.level ≤ n'.level := by
  refine List.pairwise_flatMap.mpr ⟨fun j _ => ?_, ?_⟩
  · refine List.pairwise_iff_forall_sublist.mpr fun {n n'} hsub => ?_
    have hn := (mem_tier_children.mp (hsub.subset (List.mem_cons_self))).2
    have hn' := (mem_tier_children.mp (hsub.subset (by simp : n' ∈ [n, n']))).2
    omega
  · refine List.pairwise_lt_range.imp ?_
    intro i j hij n hn n' hn'
    have hi := (mem_tier_children.mp hn).2
    have hj := (mem_tier_children.mp hn').2
    omega

/-! ## The level cap -/

variable {limits : SearchLimits}

lemma mem_offspring {child : Node} :
    child ∈ p.offspring limits n ↔
      limits.caps n.level = false ∧ child ∈ n.children p.domain.actions := by
  unfold Problem.offspring
  split <;> simp_all

/-- Down to the cap the tiers are those of the whole tree, and below it there are none. -/
lemma tier_offspring (p : Problem) (limits : SearchLimits) (k : ℕ) :
    tier (p.offspring limits) p.root k =
      if ∀ j < k, limits.caps j = false then tier (Node.children p.domain.actions) p.root k
      else [] := by
  induction k with
  | zero => simp [tier]
  | succ k ih =>
    rw [tier, ih]
    by_cases hbelow : ∀ j < k, limits.caps j = false
    · rw [if_pos hbelow]
      by_cases hk : limits.caps k = false
      · rw [if_pos (fun j hj => by
          rcases Nat.lt_succ_iff_lt_or_eq.mp hj with hj | rfl
          · exact hbelow j hj
          · exact hk)]
        -- All nodes of the tier have its level, so they have all their children.
        refine List.flatMap_congr fun n hn => ?_
        rw [Problem.offspring, (mem_tier_children.mp hn).2, if_neg (by simp [hk])]
      · rw [if_neg fun h => hk (h k (Nat.lt_succ_self k)), List.flatMap_eq_nil_iff]
        intro n hn
        rw [Problem.offspring, (mem_tier_children.mp hn).2, if_pos (by simpa using hk)]
    · rw [if_neg hbelow, if_neg fun h => hbelow fun j hj => h j (by omega)]
      rfl

lemma tier_offspring_eq_nil {m k : ℕ} (hm : limits.maxLevel = some m) (hk : m < k) :
    tier (p.offspring limits) p.root k = [] := by
  have hcaps : ¬ ∀ j < k, limits.caps j = false := fun h => by
    simpa [SearchLimits.caps, hm] using h m hk
  rw [tier_offspring, if_neg hcaps]

lemma tier_offspring_eq_nil_of_level_lt {j k : ℕ} (hk : ∀ n, p.HasNode n → n.level < k)
    (hj : k ≤ j) : tier (p.offspring limits) p.root j = [] := by
  rw [tier_offspring]
  split
  · refine List.eq_nil_iff_forall_not_mem.mpr fun n hn => ?_
    obtain ⟨hnode, hlevel⟩ := mem_tier_children.mp hn
    have hlt := hk n hnode
    omega
  · rfl

/-- A tier that the cap lets through is a tier of the whole tree. -/
lemma tier_offspring_eq {k : ℕ} (h : tier (p.offspring limits) p.root k ≠ []) :
    tier (p.offspring limits) p.root k = tier (Node.children p.domain.actions) p.root k := by
  rw [tier_offspring] at h ⊢
  split at h
  next hcaps => exact if_pos hcaps
  next => exact absurd rfl h

lemma level_of_mem_tier_offspring {k : ℕ} (hn : n ∈ tier (p.offspring limits) p.root k) :
    n.level = k := by
  rw [tier_offspring] at hn
  split at hn
  · exact (mem_tier_children.mp hn).2
  · simp at hn

lemma mem_tier_offspring (hn : p.HasNode n) (hcaps : ∀ j < n.level, limits.caps j = false) :
    n ∈ tier (p.offspring limits) p.root n.level := by
  rw [tier_offspring, if_pos hcaps]
  exact mem_tier_children.mpr ⟨hn, rfl⟩

/-- The sweeps under a cap are sweeps of the whole tree. -/
lemma exists_sweep_offspring (p : Problem) (limits : SearchLimits) (k : ℕ) :
    ∃ j, sweep (p.offspring limits) p.root k = sweep (Node.children p.domain.actions) p.root j := by
  induction k with
  | zero => exact ⟨0, rfl⟩
  | succ k ih =>
    obtain ⟨j, hj⟩ := ih
    by_cases hbelow : ∀ i < k, limits.caps i = false
    · refine ⟨k + 1, List.flatMap_congr fun i hi => ?_⟩
      rw [tier_offspring, if_pos fun i' hi' => hbelow i' (by have := List.mem_range.mp hi; omega)]
    · refine ⟨j, ?_⟩
      rw [sweep_succ, tier_offspring, if_neg hbelow, List.append_nil, hj]

end Ways

end ClassicalPlanning
