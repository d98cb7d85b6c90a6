/-
Layouts of a yard.

A layout says which containers lie on each stack, from the top, and what each arm holds, and
every container is in one place.  The facts that a planner works with say the same in bits:
for each container on which stack it is and what it lies on, for each stack what is at its
top, for each arm whether it is free or what it holds.  `Layout.atoms` lists these bits, and
a state describes a layout if its asserted facts say them, in any order and once each
(`Layout.DescribedBy`).

The main results are `mem_atoms`, that the bits can be read off the layout, `nodup_atoms`, that
none is said twice, and `exists_frame`, that a change at one arm and one stack changes only the
bits about these.
-/
import ClassicalPlanning.CraneYard
import ClassicalPlanning.Proofs.Matching.Anonymity
import ClassicalPlanning.Proofs.Matching.Positive
import Mathlib.Data.List.Pairwise
import Mathlib.Logic.Function.Basic

namespace ClassicalPlanning.CraneYard

/-- The arms, stacks and containers of a yard, and the pallet, on which all stacks rest. -/
structure Yard where
  armNames : List String
  stackNames : List String
  /-- The containers; whether the pallet counts as one of them makes no difference. -/
  containerNames : List String
  pallet : String
  nodup_armNames : armNames.Nodup
  nodup_stackNames : stackNames.Nodup
  nodup_containerNames : containerNames.Nodup

/-- Where the containers of a yard are. -/
structure Layout (y : Yard) where
  /-- What lies on a stack, from the top. -/
  pile : String → List String
  /-- What an arm holds. -/
  load : String → Option String
  /-- Every container is in one place. -/
  once : (y.stackNames.flatMap pile ++ y.armNames.flatMap fun a => (load a).toList).Perm
    y.containerNames

/-- What can be asserted of a yard. -/
inductive Atom where
  /-- The arm holds the container. -/
  | holding (a x : String)
  /-- The arm is free. -/
  | free (a : String)
  /-- The container is on the stack. -/
  | on (x q : String)
  /-- The container, or the pallet, is at the top of the stack. -/
  | atTheTop (x q : String)
  /-- The container is on top of the other, or of the pallet. -/
  | onTop (x z : String)
deriving DecidableEq, Repr

/-- The literal that asserts the atom. -/
def Atom.literal : Atom → Literal
  | holding a x => asserted "holding" [k.fill ⟨a, arm⟩, c.fill ⟨x, container⟩]
  | free a => asserted "free" [k.fill ⟨a, arm⟩]
  | on x q => asserted "on" [c.fill ⟨x, container⟩, p.fill ⟨q, stack⟩]
  | atTheTop x q => asserted "at_the_top" [c.fill ⟨x, container⟩, p.fill ⟨q, stack⟩]
  | onTop x z => asserted "on_top"
      [(Variable.free "?k1" container).fill ⟨x, container⟩,
        (Variable.free "?k2" container).fill ⟨z, container⟩]

/-- What is said of the containers of a pile on the stack `q`. -/
def pileAtoms (pallet q : String) : List String → List Atom
  | [] => []
  | x :: below => .on x q :: .onTop x (below.headD pallet) :: pileAtoms pallet q below

/-- What is said of a stack with the given pile. -/
def stackAtoms (pallet q : String) (pile : List String) : List Atom :=
  .atTheTop (pile.headD pallet) q :: pileAtoms pallet q pile

/-- What is said of an arm with the given load. -/
def armAtoms (a : String) : Option String → List Atom
  | none => [.free a]
  | some x => [.holding a x]

namespace Layout

variable {y : Yard}

/-- What is said of a yard of this layout. -/
def atoms (l : Layout y) : List Atom :=
  y.stackNames.flatMap (fun q => stackAtoms y.pallet q (l.pile q)) ++
    y.armNames.flatMap fun a => armAtoms a (l.load a)

/-- The asserted facts of the state say what is to be said of the layout, once each. -/
def DescribedBy (l : Layout y) (s : State) : Prop :=
  SameContent s.positives (l.atoms.map Atom.literal)

/-- The asserted facts of the state are the literals of the layout, in any order and with any
names of their variables. -/
def EncodedBy (l : Layout y) (s : State) : Prop :=
  (s.positives.map Literal.anonymous).Perm ((l.atoms.map Atom.literal).map Literal.anonymous)

end Layout

/-! ## What atoms say -/

namespace Atom

lemma wellTyped_literal (f : Atom) : f.literal.WellTyped := by
  cases f <;>
    simp [literal, asserted, Literal.WellTyped, Variable.WellTyped, Variable.fill, Variable.free,
      c, k, p]

lemma proposition_literal (f : Atom) : f.literal.proposition =
    match f with
    | holding a x => ⟨⟨.positive, "holding"⟩, [.constant a arm, .constant x container]⟩
    | free a => ⟨⟨.positive, "free"⟩, [.constant a arm]⟩
    | on x q => ⟨⟨.positive, "on"⟩, [.constant x container, .constant q stack]⟩
    | atTheTop x q => ⟨⟨.positive, "at_the_top"⟩, [.constant x container, .constant q stack]⟩
    | onTop x z => ⟨⟨.positive, "on_top"⟩, [.constant x container, .constant z container]⟩ := by
  cases f <;> rfl

/-- Different atoms say different things. -/
lemma proposition_literal_injective :
    Function.Injective fun f : Atom => f.literal.proposition := by
  intro f f' h
  cases f <;> cases f' <;> simp_all [proposition_literal]

end Atom

namespace Layout

variable {y : Yard} {l : Layout y} {s : State}

lemma EncodedBy.describedBy (h : l.EncodedBy s) : l.DescribedBy s := by
  have hproposition : ∀ ls : List Literal,
      (ls.map Literal.anonymous).map Literal.proposition = ls.map Literal.proposition := by
    intro ls
    simp [Function.comp_def]
  rw [DescribedBy, SameContent, ← hproposition, ← hproposition (l.atoms.map Atom.literal)]
  exact List.Perm.map _ h

lemma EncodedBy.wellTyped (h : l.EncodedBy s) : ∀ f ∈ s.positives, f.WellTyped := by
  intro f hf
  have hmem := h.subset (List.mem_map_of_mem hf)
  obtain ⟨f', hf', hsame⟩ := List.mem_map.mp hmem
  obtain ⟨atom, -, rfl⟩ := List.mem_map.mp hf'
  -- Whether a literal is well typed does not depend on the names.
  rw [← Literal.wellTyped_anonymous_iff, ← hsame, Literal.wellTyped_anonymous_iff]
  exact atom.wellTyped_literal

end Layout

/-! ## Reading the atoms -/

section Atoms

variable {pallet q a : String} {pile : List String} {load : Option String} {f : Atom}

lemma mem_pileAtoms : f ∈ pileAtoms pallet q pile ↔
    ∃ x below, x :: below <:+ pile ∧ (f = .on x q ∨ f = .onTop x (below.headD pallet)) := by
  induction pile with
  | nil => simp [pileAtoms]
  | cons x pile ih =>
    rw [pileAtoms, List.mem_cons, List.mem_cons, ih]
    constructor
    · rintro (rfl | rfl | ⟨x', below, hsuffix, hf⟩)
      · exact ⟨x, pile, List.suffix_rfl, Or.inl rfl⟩
      · exact ⟨x, pile, List.suffix_rfl, Or.inr rfl⟩
      · exact ⟨x', below, hsuffix.trans (List.suffix_cons x pile), hf⟩
    · rintro ⟨x', below, hsuffix, hf⟩
      rcases List.suffix_cons_iff.mp hsuffix with heq | hsuffix
      · obtain ⟨rfl, rfl⟩ := List.cons.inj heq
        rcases hf with rfl | rfl <;> simp
      · exact Or.inr (Or.inr ⟨x', below, hsuffix, hf⟩)

lemma nodup_pileAtoms (h : pile.Nodup) : (pileAtoms pallet q pile).Nodup := by
  induction pile with
  | nil => exact List.nodup_nil
  | cons x pile ih =>
    obtain ⟨hx, hpile⟩ := List.nodup_cons.mp h
    -- What is said of a container is not said of those below it.
    have hbelow : ∀ f ∈ pileAtoms pallet q pile, f ≠ .on x q ∧ ∀ z, f ≠ .onTop x z := by
      intro f hf
      obtain ⟨x', below, hsuffix, hf⟩ := mem_pileAtoms.mp hf
      have hne : x' ≠ x := fun heq => hx (heq ▸ hsuffix.subset List.mem_cons_self)
      rcases hf with rfl | rfl <;> simp [hne]
    refine List.nodup_cons.mpr ⟨?_, List.nodup_cons.mpr ⟨?_, ih hpile⟩⟩
    · intro hmem
      rcases List.mem_cons.mp hmem with heq | hmem
      · simp at heq
      · exact (hbelow _ hmem).1 rfl
    · exact fun hmem => (hbelow _ hmem).2 _ rfl

end Atoms

namespace Layout

variable {y : Yard} {l l' : Layout y} {f : Atom}

lemma nodup_places (l : Layout y) :
    (y.stackNames.flatMap l.pile ++ y.armNames.flatMap fun a => (l.load a).toList).Nodup :=
  l.once.nodup_iff.mpr y.nodup_containerNames

lemma nodup_pile (l : Layout y) {q : String} (hq : q ∈ y.stackNames) : (l.pile q).Nodup :=
  (List.nodup_flatMap.mp (List.nodup_append.mp l.nodup_places).1).1 q hq

/-- A container lies on one stack at most. -/
lemma stack_eq (l : Layout y) {q q' x : String} (hq : q ∈ y.stackNames) (hq' : q' ∈ y.stackNames)
    (hx : x ∈ l.pile q) (hx' : x ∈ l.pile q') : q = q' := by
  have hdisjoint := (List.nodup_flatMap.mp (List.nodup_append.mp l.nodup_places).1).2
  have : Std.Symm (Function.onFun List.Disjoint l.pile) := ⟨fun _ _ h _ hx hx' => h hx' hx⟩
  by_contra hne
  exact hdisjoint.forall hq hq' hne hx hx'

/-- The bits are those about the stacks, about what lies on them, and about the arms. -/
lemma mem_atoms : f ∈ l.atoms ↔
    (∃ q ∈ y.stackNames, f = .atTheTop ((l.pile q).headD y.pallet) q) ∨
    (∃ q ∈ y.stackNames, ∃ x below, x :: below <:+ l.pile q ∧
      (f = .on x q ∨ f = .onTop x (below.headD y.pallet))) ∨
    (∃ a ∈ y.armNames, f ∈ armAtoms a (l.load a)) := by
  simp only [atoms, List.mem_append, List.mem_flatMap, stackAtoms, List.mem_cons, mem_pileAtoms,
    and_or_left, exists_or, or_assoc]

lemma nodup_stackAtoms (l : Layout y) {q : String} (hq : q ∈ y.stackNames) :
    (stackAtoms y.pallet q (l.pile q)).Nodup := by
  refine List.nodup_cons.mpr ⟨fun hmem => ?_, nodup_pileAtoms (l.nodup_pile hq)⟩
  obtain ⟨x, below, -, hf⟩ := mem_pileAtoms.mp hmem
  simp at hf

/-- What is said of a stack is not said of another one. -/
lemma disjoint_stackAtoms (l : Layout y) {q q' : String} (hq : q ∈ y.stackNames)
    (hq' : q' ∈ y.stackNames) (hne : q ≠ q') :
    (stackAtoms y.pallet q (l.pile q)).Disjoint (stackAtoms y.pallet q' (l.pile q')) := by
  intro f hf hf'
  simp only [stackAtoms, List.mem_cons, mem_pileAtoms] at hf hf'
  rcases hf with rfl | ⟨x, below, hsuffix, hf⟩
  · simp [hne] at hf'
  · rcases hf' with rfl | ⟨x', below', hsuffix', hf'⟩
    · simp at hf
    -- The two stacks would have a container in common.
    · have hx : x = x' := by rcases hf with rfl | rfl <;> simp_all
      exact hne (l.stack_eq hq hq' (hsuffix.subset List.mem_cons_self)
        (hx ▸ hsuffix'.subset List.mem_cons_self))

lemma eq_of_mem_armAtoms {a : String} {load : Option String} (hf : f ∈ armAtoms a load) :
    f = .free a ∨ ∃ x, f = .holding a x := by
  cases load <;> simp_all [armAtoms]

/-- Nothing is said twice. -/
theorem nodup_atoms (l : Layout y) : l.atoms.Nodup := by
  refine List.nodup_append.mpr ⟨?_, ?_, fun f hf f' hf' heq => ?_⟩
  · refine List.nodup_flatMap.mpr ⟨fun q hq => l.nodup_stackAtoms hq, ?_⟩
    exact y.nodup_stackNames.imp_of_mem fun hq hq' hne => l.disjoint_stackAtoms hq hq' hne
  · refine List.nodup_flatMap.mpr ⟨fun a _ => ?_, y.nodup_armNames.imp fun hne f hf hf' => ?_⟩
    · cases l.load a <;> simp [armAtoms]
    · rcases eq_of_mem_armAtoms hf with rfl | ⟨x, rfl⟩ <;>
        rcases eq_of_mem_armAtoms hf' with h | ⟨x', h⟩ <;> simp_all
  -- What is said of stacks and what is said of arms are different kinds of atoms.
  · obtain ⟨q, -, hq⟩ := List.mem_flatMap.mp hf
    obtain ⟨a, -, ha⟩ := List.mem_flatMap.mp hf'
    simp only [stackAtoms, List.mem_cons, mem_pileAtoms] at hq
    rcases eq_of_mem_armAtoms ha with rfl | ⟨x, rfl⟩ <;>
      rcases hq with rfl | ⟨x', below, -, rfl | rfl⟩ <;> simp at heq

end Layout

/-! ## Change at one arm and one stack -/

/-- If two functions agree but for one element, their images of a list have the other elements'
images in common. -/
lemma flatMap_perm_of_mem {α β : Type} [DecidableEq α] {l : List α} {f g : α → List β} {a : α}
    (hl : l.Nodup) (ha : a ∈ l) (h : ∀ b, b ≠ a → g b = f b) :
    (l.flatMap g).Perm (g a ++ (l.erase a).flatMap f) := by
  have hrest : (l.erase a).flatMap g = (l.erase a).flatMap f :=
    List.flatMap_congr fun b hb => h b (hl.mem_erase_iff.mp hb).1
  have hperm := (List.perm_cons_erase ha).flatMap_right g
  rwa [List.flatMap_cons, hrest] at hperm

lemma append_append_perm_comm {α : Type} (s s' t t' : List α) :
    (s ++ s' ++ (t ++ t')).Perm (s ++ t ++ (s' ++ t')) := by
  simp only [List.append_assoc]
  exact (List.perm_append_comm_assoc s' t t').append_left s

namespace Layout

variable {y : Yard} {l l' : Layout y} {a q : String}

/-- An arm and a stack can exchange what they have. -/
lemma exists_exchange (l : Layout y) (ha : a ∈ y.armNames) (hq : q ∈ y.stackNames)
    {pile : List String} {load : Option String}
    (h : (pile ++ load.toList).Perm (l.pile q ++ (l.load a).toList)) :
    ∃ l' : Layout y,
      l'.pile = Function.update l.pile q pile ∧ l'.load = Function.update l.load a load := by
  refine ⟨⟨Function.update l.pile q pile, Function.update l.load a load, ?_⟩, rfl, rfl⟩
  have hpiles := flatMap_perm_of_mem (f := l.pile) (g := Function.update l.pile q pile)
    y.nodup_stackNames hq fun _ hne => Function.update_of_ne hne ..
  have hloads := flatMap_perm_of_mem (f := fun a => (l.load a).toList)
    (g := fun a' => (Function.update l.load a load a').toList) y.nodup_armNames ha fun a' hne => by
      rw [Function.update_of_ne hne]
  rw [Function.update_self] at hpiles hloads
  -- The other stacks and arms have what they had.
  refine ((hpiles.append hloads).trans (append_append_perm_comm _ _ _ _)).trans ?_
  refine ((h.append_right _).trans (append_append_perm_comm _ _ _ _)).trans ?_
  refine List.Perm.trans (List.Perm.symm ?_) l.once
  exact (flatMap_perm_of_mem y.nodup_stackNames hq fun _ _ => rfl).append
    (flatMap_perm_of_mem y.nodup_armNames ha fun _ _ => rfl)

/-- A change at one arm and one stack leaves what is said of the others. -/
theorem exists_frame (ha : a ∈ y.armNames) (hq : q ∈ y.stackNames) {pile : List String}
    {load : Option String} (hpile : l'.pile = Function.update l.pile q pile)
    (hload : l'.load = Function.update l.load a load) :
    ∃ others,
      l.atoms.Perm (stackAtoms y.pallet q (l.pile q) ++ armAtoms a (l.load a) ++ others) ∧
      l'.atoms.Perm (stackAtoms y.pallet q pile ++ armAtoms a load ++ others) := by
  refine ⟨(y.stackNames.erase q).flatMap (fun q => stackAtoms y.pallet q (l.pile q)) ++
    (y.armNames.erase a).flatMap fun a => armAtoms a (l.load a), ?_, ?_⟩
  · refine List.Perm.trans ?_ (append_append_perm_comm _ _ _ _)
    exact (flatMap_perm_of_mem y.nodup_stackNames hq fun _ _ => rfl).append
      (flatMap_perm_of_mem y.nodup_armNames ha fun _ _ => rfl)
  · have hpiles := flatMap_perm_of_mem (g := fun q => stackAtoms y.pallet q (l'.pile q))
      (f := fun q => stackAtoms y.pallet q (l.pile q)) y.nodup_stackNames hq fun q' hne => by
        rw [hpile, Function.update_of_ne hne]
    have hloads := flatMap_perm_of_mem (g := fun a => armAtoms a (l'.load a))
      (f := fun a => armAtoms a (l.load a)) y.nodup_armNames ha fun a' hne => by
        rw [hload, Function.update_of_ne hne]
    rw [hpile, Function.update_self, ← hpile] at hpiles
    rw [hload, Function.update_self, ← hload] at hloads
    exact (hpiles.append hloads).trans (append_append_perm_comm _ _ _ _)

end Layout

end ClassicalPlanning.CraneYard
