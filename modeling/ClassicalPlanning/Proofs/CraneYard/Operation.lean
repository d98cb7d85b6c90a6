/-
What the arms of a yard can do.

A free arm picks up what is at the top of a stack, and a loaded arm puts its load on a stack.
`Layout.Step` says what becomes of the layout, `Layout.pickUps` and `Layout.putDowns` list what
can be done at all.  Each operation goes with the atoms that it uses up and with those that it
makes true.

The main results are `Layout.Step.exists_others`, that the atoms of a layout change just in
this way, and `mem_pickUps_iff` and `mem_putDowns_iff`, that an operation can be carried out
just if the atoms that it uses up are there.
-/
import ClassicalPlanning.Proofs.CraneYard.Layout
import Mathlib.Data.List.ProdSigma

namespace ClassicalPlanning.CraneYard

/-- What an arm does at a stack. -/
inductive Operation where
  /-- The arm `a` picks up `x`, which lies on `z` on the stack `q`. -/
  | pickUp (a x z q : String)
  /-- The arm `a` puts `x` on `z`, which is at the top of the stack `q`. -/
  | putDown (a x z q : String)
deriving DecidableEq, Repr

lemma pickUp_ne_putDown : CraneYard.pickUp ≠ CraneYard.putDown := by
  decide

namespace Operation

/-- The action of which the operation is an instance. -/
def action : Operation → Action
  | pickUp .. => CraneYard.pickUp
  | putDown .. => CraneYard.putDown

/-- What is true before the operation and no longer after it, in the order of the
preconditions. -/
def consumed : Operation → List Atom
  | pickUp a x z q => [.free a, .on x q, .atTheTop x q, .onTop x z]
  | putDown a x z q => [.holding a x, .atTheTop z q]

/-- What the operation makes true, in the order of the effects. -/
def added : Operation → List Atom
  | pickUp a x z q => [.holding a x, .atTheTop z q]
  | putDown a x z q => [.on x q, .atTheTop x q, .onTop x z, .free a]

end Operation

namespace Layout

variable {y : Yard}

/-- An operation turns one layout into another. -/
inductive Step (l l' : Layout y) : Operation → Prop
  /-- The arm is free and takes the container at the top of the stack. -/
  | pickUp {a q x : String} {below : List String} (ha : a ∈ y.armNames) (hq : q ∈ y.stackNames)
      (hload : l.load a = none) (hpile : l.pile q = x :: below)
      (hload' : l'.load = Function.update l.load a (some x))
      (hpile' : l'.pile = Function.update l.pile q below) :
      l.Step l' (.pickUp a x (below.headD y.pallet) q)
  /-- The arm puts the container that it holds at the top of the stack. -/
  | putDown {a q x : String} (ha : a ∈ y.armNames) (hq : q ∈ y.stackNames)
      (hload : l.load a = some x) (hload' : l'.load = Function.update l.load a none)
      (hpile' : l'.pile = Function.update l.pile q (x :: l.pile q)) :
      l.Step l' (.putDown a x ((l.pile q).headD y.pallet) q)

/-- One operation for each pair of a free arm and a stack that is not empty. -/
def pickUps (l : Layout y) : List Operation :=
  (y.armNames ×ˢ y.stackNames).filterMap fun (a, q) =>
    match l.load a, l.pile q with
    | none, x :: below => some (.pickUp a x (below.headD y.pallet) q)
    | _, _ => none

/-- One operation for each pair of a loaded arm and a stack. -/
def putDowns (l : Layout y) : List Operation :=
  (y.armNames ×ˢ y.stackNames).filterMap fun (a, q) =>
    (l.load a).map fun x => .putDown a x ((l.pile q).headD y.pallet) q

variable {l l' : Layout y} {o : Operation} {a q x z : String}

/-! ## What can be done -/

lemma mem_pickUps : o ∈ l.pickUps ↔ ∃ a ∈ y.armNames, ∃ q ∈ y.stackNames, ∃ x below,
    l.load a = none ∧ l.pile q = x :: below ∧ o = .pickUp a x (below.headD y.pallet) q := by
  simp only [pickUps, List.mem_filterMap, Prod.exists, List.mem_product]
  constructor
  · rintro ⟨a, q, ⟨ha, hq⟩, ho⟩
    split at ho
    next x below hload hpile =>
      exact ⟨a, ha, q, hq, x, below, hload, hpile, (Option.some.inj ho).symm⟩
    next => simp at ho
  · rintro ⟨a, ha, q, hq, x, below, hload, hpile, rfl⟩
    exact ⟨a, q, ⟨ha, hq⟩, by rw [hload, hpile]⟩

lemma mem_putDowns : o ∈ l.putDowns ↔ ∃ a ∈ y.armNames, ∃ q ∈ y.stackNames, ∃ x,
    l.load a = some x ∧ o = .putDown a x ((l.pile q).headD y.pallet) q := by
  simp only [putDowns, List.mem_filterMap, Prod.exists, List.mem_product, Option.map_eq_some_iff]
  constructor
  · rintro ⟨a, q, ⟨ha, hq⟩, x, hload, rfl⟩
    exact ⟨a, ha, q, hq, x, hload, rfl⟩
  · rintro ⟨a, ha, q, hq, x, hload, rfl⟩
    exact ⟨a, q, ⟨ha, hq⟩, x, hload, rfl⟩

lemma nodup_pickUps (l : Layout y) : l.pickUps.Nodup := by
  refine List.Nodup.filterMap ?_ (y.nodup_armNames.product y.nodup_stackNames)
  rintro ⟨a, q⟩ ⟨a', q'⟩ o ho ho'
  simp only [Option.mem_def] at ho ho'
  split at ho <;> simp only [Option.some.injEq, reduceCtorEq] at ho
  split at ho' <;> simp only [Option.some.injEq, reduceCtorEq] at ho'
  obtain ⟨rfl, -, -, rfl⟩ := Operation.pickUp.inj (ho.trans ho'.symm)
  rfl

lemma nodup_putDowns (l : Layout y) : l.putDowns.Nodup := by
  refine List.Nodup.filterMap ?_ (y.nodup_armNames.product y.nodup_stackNames)
  rintro ⟨a, q⟩ ⟨a', q'⟩ o ho ho'
  simp only [Option.mem_def, Option.map_eq_some_iff] at ho ho'
  obtain ⟨x, -, rfl⟩ := ho
  obtain ⟨x', -, ho'⟩ := ho'
  obtain ⟨rfl, -, -, rfl⟩ := Operation.putDown.inj ho'
  rfl

lemma exists_step_of_mem_pickUps (ho : o ∈ l.pickUps) : ∃ l', l.Step l' o := by
  obtain ⟨a, ha, q, hq, x, below, hload, hpile, rfl⟩ := mem_pickUps.mp ho
  have hperm : (below ++ (some x).toList).Perm (l.pile q ++ (l.load a).toList) := by
    rw [hload, hpile, Option.toList_none, Option.toList_some, List.append_nil]
    exact List.perm_append_comm
  obtain ⟨l', hpile', hload'⟩ := l.exists_exchange ha hq hperm
  exact ⟨l', .pickUp ha hq hload hpile hload' hpile'⟩

lemma exists_step_of_mem_putDowns (ho : o ∈ l.putDowns) : ∃ l', l.Step l' o := by
  obtain ⟨a, ha, q, hq, x, hload, rfl⟩ := mem_putDowns.mp ho
  have hperm : (x :: l.pile q ++ (none : Option String).toList).Perm
      (l.pile q ++ (l.load a).toList) := by
    rw [hload, Option.toList_none, Option.toList_some, List.append_nil]
    exact (List.perm_append_singleton x (l.pile q)).symm
  obtain ⟨l', hpile', hload'⟩ := l.exists_exchange ha hq hperm
  exact ⟨l', .putDown ha hq hload hload' hpile'⟩

/-! ## What is used up and made true -/

/-- What is said while the arm holds the container. -/
lemma lifted_perm (pallet a q x : String) (below : List String) (others : List Atom) :
    (stackAtoms pallet q below ++ armAtoms a (some x) ++ others).Perm
      ([.holding a x, .atTheTop (below.headD pallet) q] ++
        (pileAtoms pallet q below ++ others)) := by
  rw [List.perm_iff_count]
  intro f
  simp only [stackAtoms, armAtoms, List.count_append, List.count_cons, List.count_nil]
  omega

/-- What is said while the container is at the top of the stack. -/
lemma settled_perm (pallet a q x : String) (below : List String) (others : List Atom) :
    (stackAtoms pallet q (x :: below) ++ armAtoms a none ++ others).Perm
      ([.free a, .on x q, .atTheTop x q, .onTop x (below.headD pallet)] ++
        (pileAtoms pallet q below ++ others)) := by
  rw [List.perm_iff_count]
  intro f
  simp only [stackAtoms, pileAtoms, armAtoms, List.headD_cons, List.count_append, List.count_cons,
    List.count_nil]
  omega

/-- An operation uses up some atoms and makes others true, and nothing else changes. -/
theorem Step.exists_others (h : l.Step l' o) :
    ∃ others, l.atoms.Perm (o.consumed ++ others) ∧ l'.atoms.Perm (o.added ++ others) := by
  cases h with
  | @pickUp a q x below ha hq hload hpile hload' hpile' =>
    obtain ⟨others, hbefore, hafter⟩ := exists_frame ha hq hpile' hload'
    rw [hload, hpile] at hbefore
    exact ⟨_, hbefore.trans (settled_perm ..), hafter.trans (lifted_perm ..)⟩
  | @putDown a q x ha hq hload hload' hpile' =>
    obtain ⟨others, hbefore, hafter⟩ := exists_frame ha hq hpile' hload'
    rw [hload] at hbefore
    refine ⟨_, hbefore.trans (lifted_perm ..), (hafter.trans (settled_perm ..)).trans ?_⟩
    exact (List.perm_append_singleton _ _).symm.append_right _

lemma Step.consumed_subset (h : l.Step l' o) : o.consumed ⊆ l.atoms := by
  obtain ⟨others, hbefore, -⟩ := h.exists_others
  exact fun f hf => hbefore.symm.subset (List.mem_append_left _ hf)

/-! ## Operations are given by what they use up -/

lemma of_free_mem_atoms (h : .free a ∈ l.atoms) : a ∈ y.armNames ∧ l.load a = none := by
  rcases mem_atoms.mp h with ⟨q, -, hf⟩ | ⟨q, -, x, below, -, hf⟩ | ⟨a', ha', hf⟩
  · simp at hf
  · simp at hf
  · cases hload : l.load a' <;> simp_all [armAtoms]

lemma of_holding_mem_atoms (h : .holding a x ∈ l.atoms) : a ∈ y.armNames ∧ l.load a = some x := by
  rcases mem_atoms.mp h with ⟨q, -, hf⟩ | ⟨q, -, x, below, -, hf⟩ | ⟨a', ha', hf⟩
  · simp at hf
  · simp at hf
  · cases hload : l.load a' <;> simp_all [armAtoms]

lemma not_mem_armAtoms {a' : String} {load : Option String} {f : Atom}
    (h : ∀ x, f ≠ .free x) (h' : ∀ x z, f ≠ .holding x z) : f ∉ armAtoms a' load := by
  cases load <;> simp_all [armAtoms]

lemma of_atTheTop_mem_atoms (h : .atTheTop x q ∈ l.atoms) :
    q ∈ y.stackNames ∧ x = (l.pile q).headD y.pallet := by
  rcases mem_atoms.mp h with ⟨q', hq', hf⟩ | ⟨q', -, x', below, -, hf⟩ | ⟨a, -, hf⟩
  · obtain ⟨rfl, rfl⟩ := Atom.atTheTop.inj hf
    exact ⟨hq', rfl⟩
  · simp at hf
  · exact absurd hf (not_mem_armAtoms (by simp) (by simp))

lemma of_on_mem_atoms (h : .on x q ∈ l.atoms) : q ∈ y.stackNames ∧ x ∈ l.pile q := by
  rcases mem_atoms.mp h with ⟨q', -, hf⟩ | ⟨q', hq', x', below, hsuffix, hf | hf⟩ | ⟨a, -, hf⟩
  · simp at hf
  · obtain ⟨rfl, rfl⟩ := Atom.on.inj hf
    exact ⟨hq', hsuffix.subset List.mem_cons_self⟩
  · simp at hf
  · exact absurd hf (not_mem_armAtoms (by simp) (by simp))

lemma of_onTop_mem_atoms (h : .onTop x z ∈ l.atoms) : ∃ q ∈ y.stackNames, ∃ below,
    x :: below <:+ l.pile q ∧ z = below.headD y.pallet := by
  rcases mem_atoms.mp h with ⟨q', -, hf⟩ | ⟨q', hq', x', below, hsuffix, hf | hf⟩ | ⟨a, -, hf⟩
  · simp at hf
  · simp at hf
  · obtain ⟨rfl, rfl⟩ := Atom.onTop.inj hf
    exact ⟨q', hq', below, hsuffix, rfl⟩
  · exact absurd hf (not_mem_armAtoms (by simp) (by simp))

/-- A container at the top of a stack lies on what follows it there. -/
lemma pile_eq_of_mem_atoms (hon : .on x q ∈ l.atoms) (htop : .atTheTop x q ∈ l.atoms)
    (honTop : .onTop x z ∈ l.atoms) :
    ∃ below, l.pile q = x :: below ∧ z = below.headD y.pallet := by
  obtain ⟨hq, hx⟩ := of_on_mem_atoms hon
  obtain ⟨-, hhead⟩ := of_atTheTop_mem_atoms htop
  obtain ⟨q', hq', below', hsuffix, rfl⟩ := of_onTop_mem_atoms honTop
  obtain rfl : q' = q := l.stack_eq hq' hq (hsuffix.subset List.mem_cons_self) hx
  cases hpile : l.pile q' with
  | nil => simp [hpile] at hx
  | cons x' below =>
    obtain rfl : x = x' := by simpa [hpile] using hhead
    have hnodup := l.nodup_pile hq
    rw [hpile] at hsuffix hnodup
    rcases List.suffix_cons_iff.mp hsuffix with heq | hbelow
    · exact ⟨below, rfl, by rw [(List.cons.inj heq).2]⟩
    -- The container does not occur below itself.
    · exact absurd (hbelow.subset List.mem_cons_self) (List.nodup_cons.mp hnodup).1

/-- A container can be picked up just if what this uses up is true. -/
theorem mem_pickUps_iff :
    o ∈ l.pickUps ↔ o.action = CraneYard.pickUp ∧ o.consumed ⊆ l.atoms := by
  constructor
  · intro ho
    obtain ⟨l', hstep⟩ := exists_step_of_mem_pickUps ho
    obtain ⟨a, -, q, -, x, below, -, -, rfl⟩ := mem_pickUps.mp ho
    exact ⟨rfl, hstep.consumed_subset⟩
  · rintro ⟨haction, hsubset⟩
    cases o with
    | putDown a x z q => exact absurd haction pickUp_ne_putDown.symm
    | pickUp a x z q =>
      obtain ⟨ha, hload⟩ := of_free_mem_atoms (a := a) (hsubset (by simp [Operation.consumed]))
      have hon : .on x q ∈ l.atoms := hsubset (by simp [Operation.consumed])
      have htop : .atTheTop x q ∈ l.atoms := hsubset (by simp [Operation.consumed])
      have honTop : .onTop x z ∈ l.atoms := hsubset (by simp [Operation.consumed])
      obtain ⟨below, hpile, rfl⟩ := pile_eq_of_mem_atoms hon htop honTop
      exact mem_pickUps.mpr
        ⟨a, ha, q, (of_on_mem_atoms hon).1, x, below, hload, hpile, rfl⟩

/-- A container can be put down just if what this uses up is true. -/
theorem mem_putDowns_iff :
    o ∈ l.putDowns ↔ o.action = CraneYard.putDown ∧ o.consumed ⊆ l.atoms := by
  constructor
  · intro ho
    obtain ⟨l', hstep⟩ := exists_step_of_mem_putDowns ho
    obtain ⟨a, -, q, -, x, -, rfl⟩ := mem_putDowns.mp ho
    exact ⟨rfl, hstep.consumed_subset⟩
  · rintro ⟨haction, hsubset⟩
    cases o with
    | pickUp a x z q => exact absurd haction pickUp_ne_putDown
    | putDown a x z q =>
      have hholding : .holding a x ∈ l.atoms := hsubset (by simp [Operation.consumed])
      have htop : .atTheTop z q ∈ l.atoms := hsubset (by simp [Operation.consumed])
      obtain ⟨ha, hload⟩ := of_holding_mem_atoms hholding
      obtain ⟨hq, rfl⟩ := of_atTheTop_mem_atoms htop
      exact mem_putDowns.mpr ⟨a, ha, q, hq, x, hload, rfl⟩

/-- An operation can be carried out if what it uses up is true. -/
lemma exists_step (ho : o.consumed ⊆ l.atoms) : ∃ l', l.Step l' o := by
  cases o with
  | pickUp a x z q => exact exists_step_of_mem_pickUps (mem_pickUps_iff.mpr ⟨rfl, ho⟩)
  | putDown a x z q => exact exists_step_of_mem_putDowns (mem_putDowns_iff.mpr ⟨rfl, ho⟩)

end Layout

end ClassicalPlanning.CraneYard
