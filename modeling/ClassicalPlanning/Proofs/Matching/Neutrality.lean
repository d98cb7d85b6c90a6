/-
Facts whose roles do not matter.

The same facts can fill the preconditions of an action in several ways, and the matcher
keeps only one of them.  Nothing is lost by this if all the ways have effects that say the
same: then the action is neutral at these facts.  That is so if the facts fit in one way
only, but also if the effects treat the roles alike.  An action is neutral at all facts if
no two of its preconditions could be filled by the same fact, because they differ in
polarity or predicate (`neutralAt_of_nodup_heads`).
-/
import ClassicalPlanning.Proofs.Matching.Likeness
import Mathlib.Data.List.Nodup

namespace ClassicalPlanning

/-- However the facts `ms` fill the preconditions, the effects say what `effects` say. -/
def Action.NeutralAt (a : Action) (ms effects : List Literal) : Prop :=
  ∀ ms' effects', SameContent ms ms' → a.Yields ms' effects' → SameContent effects effects'

/-- A list is determined by its elements and by their keys, if no key occurs twice. -/
lemma eq_of_perm_of_map_eq {α κ : Type} {key : α → κ} {l m : List α} (h : l.Perm m)
    (hkeys : l.map key = m.map key) (hnodup : (l.map key).Nodup) : l = m := by
  have hinj := List.inj_on_of_nodup_map hnodup
  refine List.ext_getElem h.length_eq fun i hi hi' => ?_
  refine hinj (List.getElem_mem hi) (h.mem_iff.mpr (List.getElem_mem hi')) ?_
  have hkey : (l.map key)[i]? = (m.map key)[i]? := by rw [hkeys]
  simpa [hi, hi'] using hkey

/-- Facts of the same content say the same place by place, if they have the same heads place
by place and no head occurs twice. -/
lemma propositions_eq_of_heads_eq {ms ms' : List Literal} (h : SameContent ms ms')
    (hheads : ms.map Literal.head = ms'.map Literal.head) (hnodup : (ms.map Literal.head).Nodup) :
    ms.map Literal.proposition = ms'.map Literal.proposition := by
  have hhead : ∀ ls : List Literal,
      (ls.map Literal.proposition).map Proposition.head = ls.map Literal.head := by
    intro ls
    rw [List.map_map]
    rfl
  have hkeys : (ms.map Literal.proposition).map Proposition.head =
      (ms'.map Literal.proposition).map Proposition.head := by
    rw [hhead, hhead, hheads]
  exact eq_of_perm_of_map_eq h hkeys (by rwa [hhead])

/-- If the preconditions differ pairwise in polarity or predicate, each fact has only one
role that it can play. -/
theorem neutralAt_of_nodup_heads {a : Action} {ms effects : List Literal}
    (hheads : (a.preconditions.map Literal.head).Nodup) (h : a.Yields ms effects) :
    a.NeutralAt ms effects := by
  intro ms' effects' hcontent h'
  -- The facts come with the heads in the same order, and so do they themselves.
  have hsame : ms.map Literal.proposition = ms'.map Literal.proposition :=
    propositions_eq_of_heads_eq hcontent (h.heads_eq.trans h'.heads_eq.symm)
      (h.heads_eq ▸ hheads)
  exact List.Perm.of_eq (h.congr h' hsame)

end ClassicalPlanning
