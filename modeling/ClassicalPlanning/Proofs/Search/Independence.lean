/-
Independent moves.

Moves are independent in a state that contains the facts of all of them together.  Then none of
them takes away what another one needs, whatever their effects are, so they can be made in every
order; and since a move replaces content by content, the order leaves no trace but in the order
of the facts.  A fact that one move takes may be one that another has just added, if the state
says it more than once: it is the content that counts, not the place of the fact.

The main result is `apply_comm` for two moves; `exists_applyAll_of_perm` says the same of any
number of moves.
-/
import ClassicalPlanning.Proofs.Search.Tree
import ClassicalPlanning.Proofs.State.Replacement
import ClassicalPlanning.Proofs.Walk

namespace ClassicalPlanning

/-- The effects of the move, and none if its facts do not give any. -/
def Move.added (m : Move) : List Literal :=
  (m.action.effectsFor m.grounding).toOption.getD []

/-- The node that the moves lead to, made one after the other. -/
def Node.applyAll (n : Node) (ms : List Move) : Except Fault Node :=
  ms.foldlM Node.apply n

section Moves

variable {n child : Node} {m m' : Move} {ms ms' : List Move} {effects : List Literal}

lemma Move.added_eq (h : m.action.effectsFor m.grounding = .ok effects) : m.added = effects := by
  rw [Move.added, h]
  rfl

/-- A move replaces the content of its facts by the content of its effects. -/
lemma content_of_apply (h : n.apply m = .ok child) :
    SameContent (m.grounding.matched ++ child.state) (n.state ++ m.added) := by
  obtain ⟨effects, state, heffects, hstate, rfl⟩ := apply_eq_ok_iff.mp h
  rw [Move.added_eq heffects]
  exact State.content_of_successor hstate

/-- A move can be made where its facts are there, and leaves the other facts. -/
lemma exists_apply_of_contains {others : List Literal}
    (hcontains : n.state.Contains (m.grounding.matched ++ others))
    (heffects : ∃ effects, m.action.effectsFor m.grounding = .ok effects) :
    ∃ child, n.apply m = .ok child ∧ child.state.Contains others := by
  obtain ⟨effects, heffects⟩ := heffects
  obtain ⟨t, ht, hothers⟩ :=
    State.exists_successor_of_contains hcontains m.action.name effects
  exact ⟨_, apply_eq_ok_iff.mpr ⟨effects, t, heffects, ht, rfl⟩, hothers⟩

/-! ## Moves one after the other -/

lemma applyAll_cons_eq_ok_iff :
    n.applyAll (m :: ms) = .ok child ↔
      ∃ next, n.apply m = .ok next ∧ next.applyAll ms = .ok child := by
  rw [Node.applyAll, List.foldlM_cons, bind_eq_ok_iff]
  rfl

/-- Moves replace the content of their facts, taken together, by the content of their
effects. -/
lemma content_of_applyAll (h : n.applyAll ms = .ok child) :
    SameContent (ms.flatMap (·.grounding.matched) ++ child.state)
      (n.state ++ ms.flatMap Move.added) := by
  induction ms generalizing n with
  | nil =>
    obtain rfl : n = child := Except.ok.inj h
    simpa using SameContent.refl n.state
  | cons m ms ih =>
    obtain ⟨next, hnext, hchild⟩ := applyAll_cons_eq_ok_iff.mp h
    rw [List.flatMap_cons, List.flatMap_cons, List.append_assoc, ← List.append_assoc n.state]
    refine ((SameContent.refl m.grounding.matched).append (ih hchild)).trans ?_
    rw [← List.append_assoc]
    exact (content_of_apply hnext).append (.refl _)

/-- Where the facts of all moves are there, they can be made one after the other. -/
lemma exists_applyAll_of_contains
    (hcontains : n.state.Contains (ms.flatMap (·.grounding.matched)))
    (heffects : ∀ m ∈ ms, ∃ effects, m.action.effectsFor m.grounding = .ok effects) :
    ∃ child, n.applyAll ms = .ok child := by
  induction ms generalizing n with
  | nil => exact ⟨n, rfl⟩
  | cons m ms ih =>
    obtain ⟨next, hnext, hms⟩ :=
      exists_apply_of_contains hcontains (heffects m List.mem_cons_self)
    obtain ⟨child, hchild⟩ := ih hms fun m' hm' => heffects m' (List.mem_cons_of_mem m hm')
    exact ⟨child, applyAll_cons_eq_ok_iff.mpr ⟨next, hnext, hchild⟩⟩

/-- The order of moves leaves no trace in the content of the state that they lead to. -/
lemma sameContent_of_perm {child' : Node} (hperm : ms.Perm ms') (h : n.applyAll ms = .ok child)
    (h' : n.applyAll ms' = .ok child') : SameContent child.state child'.state := by
  have hmatched : SameContent (ms.flatMap (·.grounding.matched))
      (ms'.flatMap (·.grounding.matched)) := .of_perm (hperm.flatMap_right _)
  have hadded : SameContent (n.state ++ ms.flatMap Move.added)
      (n.state ++ ms'.flatMap Move.added) :=
    (SameContent.refl n.state).append (.of_perm (hperm.flatMap_right _))
  exact (((content_of_applyAll h).trans hadded).trans (content_of_applyAll h').symm).cancel_left
    hmatched

/-- Moves whose facts a state contains together can be made in every order, and the order makes
no difference to the content of the state that they lead to. -/
theorem exists_applyAll_of_perm
    (hcontains : n.state.Contains (ms.flatMap (·.grounding.matched)))
    (heffects : ∀ m ∈ ms, ∃ effects, m.action.effectsFor m.grounding = .ok effects)
    (hperm : ms.Perm ms') :
    ∃ child child', n.applyAll ms = .ok child ∧ n.applyAll ms' = .ok child' ∧
      SameContent child.state child'.state := by
  obtain ⟨child, hchild⟩ := exists_applyAll_of_contains hcontains heffects
  obtain ⟨child', hchild'⟩ := exists_applyAll_of_contains
    (hcontains.of_perm (hperm.flatMap_right _)) fun m hm => heffects m (hperm.mem_iff.mpr hm)
  exact ⟨child, child', hchild, hchild', sameContent_of_perm hperm hchild hchild'⟩

/-- Two moves whose facts a state contains together can be made in both orders.  Each of them
leaves the facts of the other one, and in the end the states have the same content, so they
satisfy the same goals. -/
theorem apply_comm (hcontains : n.state.Contains (m.grounding.matched ++ m'.grounding.matched))
    (heffects : ∃ effects, m.action.effectsFor m.grounding = .ok effects)
    (heffects' : ∃ effects, m'.action.effectsFor m'.grounding = .ok effects) :
    ∃ n₁ n₂ n₁₂ n₂₁,
      (n.apply m = .ok n₁ ∧ n₁.state.Contains m'.grounding.matched ∧ n₁.apply m' = .ok n₁₂) ∧
      (n.apply m' = .ok n₂ ∧ n₂.state.Contains m.grounding.matched ∧ n₂.apply m = .ok n₂₁) ∧
      SameContent n₁₂.state n₂₁.state ∧
      ∀ goal, n₁₂.state.Satisfies goal ↔ n₂₁.state.Satisfies goal := by
  obtain ⟨n₁, hn₁, hleft₁⟩ := exists_apply_of_contains hcontains heffects
  obtain ⟨n₂, hn₂, hleft₂⟩ :=
    exists_apply_of_contains (hcontains.of_perm List.perm_append_comm) heffects'
  have hlast₁ : n₁.state.Contains (m'.grounding.matched ++ []) := by simpa using hleft₁
  have hlast₂ : n₂.state.Contains (m.grounding.matched ++ []) := by simpa using hleft₂
  obtain ⟨n₁₂, hn₁₂, -⟩ := exists_apply_of_contains hlast₁ heffects'
  obtain ⟨n₂₁, hn₂₁, -⟩ := exists_apply_of_contains hlast₂ heffects
  have hforth : n.applyAll [m, m'] = .ok n₁₂ :=
    applyAll_cons_eq_ok_iff.mpr ⟨n₁, hn₁, applyAll_cons_eq_ok_iff.mpr ⟨n₁₂, hn₁₂, rfl⟩⟩
  have hback : n.applyAll [m', m] = .ok n₂₁ :=
    applyAll_cons_eq_ok_iff.mpr ⟨n₂, hn₂, applyAll_cons_eq_ok_iff.mpr ⟨n₂₁, hn₂₁, rfl⟩⟩
  have hcontent : SameContent n₁₂.state n₂₁.state :=
    sameContent_of_perm (List.Perm.swap m' m []) hforth hback
  exact ⟨n₁, n₂, n₁₂, n₂₁, ⟨hn₁, hleft₁, hn₁₂⟩, ⟨hn₂, hleft₂, hn₂₁⟩, hcontent,
    fun goal => ⟨hcontent.satisfies, hcontent.symm.satisfies⟩⟩

end Moves

/-! ## Two walkers -/

/-- The walker who is at `a` takes the link to `b`. -/
def Walk.stride (a b : String) : Move where
  action := Walk.step
  grounding := ⟨[Walk.here (Walk.place a), Walk.link (Walk.place a) (Walk.place b)]⟩

/-- On a line of three places there is a second walker, one place ahead. -/
def Walk.pair : Node :=
  .root { Walk.problem ["a", "b", "c"] "c" with
    state := Walk.here (Walk.place "b") :: Walk.start ["a", "b", "c"] }

lemma Walk.pair_contains : Walk.pair.state.Contains
    ((Walk.stride "a" "b").grounding.matched ++ (Walk.stride "b" "c").grounding.matched) := by
  have hperm : Walk.pair.state.Perm ((Walk.stride "a" "b").grounding.matched ++
    (Walk.stride "b" "c").grounding.matched ++ []) := by decide
  exact State.contains_of_sameContent (.of_perm hperm)

/-- It does not matter which of two walkers goes first, although the one behind comes to the
place that the other one leaves. -/
theorem walk_apply_comm : ∃ n₁ n₂ n₁₂ n₂₁,
    (Walk.pair.apply (Walk.stride "a" "b") = .ok n₁ ∧ n₁.apply (Walk.stride "b" "c") = .ok n₁₂) ∧
    (Walk.pair.apply (Walk.stride "b" "c") = .ok n₂ ∧ n₂.apply (Walk.stride "a" "b") = .ok n₂₁) ∧
    SameContent n₁₂.state n₂₁.state := by
  obtain ⟨n₁, n₂, n₁₂, n₂₁, ⟨hn₁, -, hn₁₂⟩, ⟨hn₂, -, hn₂₁⟩, hcontent, -⟩ :=
    apply_comm Walk.pair_contains ⟨_, rfl⟩ ⟨_, rfl⟩
  exact ⟨n₁, n₂, n₁₂, n₂₁, ⟨hn₁, hn₁₂⟩, ⟨hn₂, hn₂₁⟩, hcontent⟩

end ClassicalPlanning
