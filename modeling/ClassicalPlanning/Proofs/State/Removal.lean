/-
Removal of facts.

Facts are taken out of a state one after the other, each time the first fact of the state that
says the same.  What stays does not hang on the order in which they are taken out
(`removeAll_of_perm`): the facts that go are, of those that say one thing, the first ones.  If
they cannot all be taken out, the one that is reported is the first with which the list says
something more often than the state does (`removeAll_eq_error_iff`).

The main result, `successor_replaces`, says what this makes of a successor.  It can be formed
just if the state contains the matched facts, and then it is the state with exactly these facts
replaced by the effects.
-/
import ClassicalPlanning.Proofs.State.Replacement
import ClassicalPlanning.Proofs.Walk
import Mathlib.Order.Bounds.Basic

namespace ClassicalPlanning

namespace State

/-- Up to the place `i`, the list says what it says there more often than the state does. -/
def ExceededAt (s : State) (ms : List Literal) (i : ℕ) : Prop :=
  ∃ l, ms[i]? = some l ∧
    s.countP (fun m => m ≈ l) < (ms.take (i + 1)).countP (fun m => m ≈ l)

variable {s t u rest : State} {l m : Literal} {ms ns effects : List Literal} {action : String}

/-! ## One fact -/

lemma remove?_cons_of_equiv (h : m ≈ l) : remove? l (m :: s) = some s := by
  rw [remove?, if_pos h]

lemma remove?_cons_of_not_equiv (h : ¬ m ≈ l) :
    remove? l (m :: s) = (s.remove? l).map (m :: ·) := by
  rw [remove?, if_neg h]

/-- Literals that say the same take out the same fact. -/
lemma remove?_congr (h : l ≈ m) (s : State) : s.remove? l = s.remove? m := by
  induction s with
  | nil => rfl
  | cons x s ih =>
    by_cases hx : x ≈ l
    · rw [remove?_cons_of_equiv hx, remove?_cons_of_equiv (Setoid.trans hx h)]
    · have hx' : ¬ x ≈ m := fun hm => hx (Setoid.trans hm (Setoid.symm h))
      rw [remove?_cons_of_not_equiv hx, remove?_cons_of_not_equiv hx', ih]

/-- Two facts can be taken out in the other order, too, and the same facts stay. -/
lemma remove?_comm (ht : s.remove? l = some t) (hu : t.remove? m = some u) :
    ∃ t', s.remove? m = some t' ∧ t'.remove? l = some u := by
  induction s generalizing t u with
  | nil => simp [remove?] at ht
  | cons x s ih =>
    by_cases hl : x ≈ l
    · obtain rfl : s = t := by simpa [remove?_cons_of_equiv hl] using ht
      by_cases hm : x ≈ m
      -- Both literals say what the first fact says.
      · have hlm : l ≈ m := Setoid.trans (Setoid.symm hl) hm
        exact ⟨s, remove?_cons_of_equiv hm, (remove?_congr hlm s).trans hu⟩
      · exact ⟨x :: u, by rw [remove?_cons_of_not_equiv hm, hu, Option.map_some],
          remove?_cons_of_equiv hl⟩
    · rw [remove?_cons_of_not_equiv hl] at ht
      obtain ⟨others, hothers, rfl⟩ := Option.map_eq_some_iff.mp ht
      by_cases hm : x ≈ m
      · obtain rfl : others = u := by simpa [remove?_cons_of_equiv hm] using hu
        exact ⟨s, remove?_cons_of_equiv hm, hothers⟩
      · rw [remove?_cons_of_not_equiv hm] at hu
        obtain ⟨left, hleft, rfl⟩ := Option.map_eq_some_iff.mp hu
        obtain ⟨t', ht', hleft'⟩ := ih hothers hleft
        exact ⟨x :: t', by rw [remove?_cons_of_not_equiv hm, ht', Option.map_some],
          by rw [remove?_cons_of_not_equiv hl, hleft', Option.map_some]⟩

lemma countP_eq_zero_of_remove? (h : s.remove? l = none) : s.countP (fun m => m ≈ l) = 0 := by
  refine List.countP_eq_zero.mpr fun m hm hml => ?_
  have hmem : l.proposition ∈ s.map Literal.proposition :=
    List.mem_map.mpr ⟨m, hm, Literal.equiv_iff.mp (of_decide_eq_true hml)⟩
  obtain ⟨rest, hrest⟩ := exists_remove? hmem
  simp [h] at hrest

/-! ## All facts of a list -/

lemma removeAll_cons_eq_ok_iff : s.removeAll (l :: ms) = .ok rest ↔
    ∃ others, s.remove? l = some others ∧ State.removeAll others ms = .ok rest := by
  rw [removeAll]
  cases s.remove? l <;> simp

/-- The order in which facts are taken out makes no difference to what stays. -/
lemma removeAll_of_perm (hperm : ms.Perm ns) (h : s.removeAll ms = .ok rest) :
    s.removeAll ns = .ok rest := by
  induction hperm generalizing s with
  | nil => exact h
  | cons l _ ih =>
    obtain ⟨others, hothers, hrest⟩ := removeAll_cons_eq_ok_iff.mp h
    exact removeAll_cons_eq_ok_iff.mpr ⟨others, hothers, ih hrest⟩
  | swap l m ms =>
    obtain ⟨t, ht, hrest⟩ := removeAll_cons_eq_ok_iff.mp h
    obtain ⟨u, hu, hrest⟩ := removeAll_cons_eq_ok_iff.mp hrest
    obtain ⟨t', ht', hu'⟩ := remove?_comm ht hu
    exact removeAll_cons_eq_ok_iff.mpr ⟨t', ht', removeAll_cons_eq_ok_iff.mpr ⟨u, hu', hrest⟩⟩
  | trans _ _ ih ih' => exact ih' (ih h)

/-- A fact that cannot be taken out is once too often in the list, and the facts before it
can be taken out. -/
lemma exists_append_of_removeAll_eq_error (h : s.removeAll ms = .error l) :
    ∃ earlier later, ms = earlier ++ l :: later ∧ s.Contains earlier ∧
      s.countP (fun m => m ≈ l) < (earlier ++ [l]).countP (fun m => m ≈ l) := by
  induction ms generalizing s with
  | nil => simp [removeAll] at h
  | cons m ms ih =>
    rw [removeAll] at h
    cases hm : s.remove? m with
    | none =>
      obtain rfl : m = l := by simpa [hm] using h
      refine ⟨[], ms, rfl, fun l => by simp, ?_⟩
      rw [countP_eq_zero_of_remove? hm, List.nil_append, List.countP_singleton,
        if_pos (decide_eq_true (Setoid.refl m))]
      exact Nat.one_pos
    | some others =>
      rw [hm] at h
      have hcontent : SameContent s (m :: others) := (remove?_eq_some hm).1
      obtain ⟨earlier, later, rfl, hearlier, hlt⟩ := ih h
      refine ⟨m :: earlier, later, rfl, fun x => ?_, ?_⟩
      · rw [hcontent.countP_eq x, List.countP_cons, List.countP_cons]
        exact Nat.add_le_add_right (hearlier x) _
      · rw [hcontent.countP_eq l, List.cons_append, List.countP_cons, List.countP_cons]
        exact Nat.add_lt_add_right hlt _

/-- A list that exceeds the state somewhere is not contained in it. -/
lemma not_contains_of_exceededAt {i : ℕ} (h : s.ExceededAt ms i) : ¬ s.Contains ms := by
  obtain ⟨l, -, hlt⟩ := h
  intro hcontains
  have hle : (ms.take (i + 1)).countP (fun m => m ≈ l) ≤ ms.countP (fun m => m ≈ l) :=
    (List.take_sublist _ _).countP_le
  exact absurd (hle.trans (hcontains l)) (Nat.not_le.mpr hlt)

/-- The fact that cannot be taken out stands at the first place at which the list exceeds the
state. -/
lemma exists_isLeast_of_removeAll_eq_error (h : s.removeAll ms = .error l) :
    ∃ i, IsLeast {j | s.ExceededAt ms j} i ∧ ms[i]? = some l := by
  obtain ⟨earlier, later, rfl, hearlier, hlt⟩ := exists_append_of_removeAll_eq_error h
  have htake : (earlier ++ l :: later).take (earlier.length + 1) = earlier ++ [l] := by
    rw [List.take_length_add_append]
    rfl
  have hget : (earlier ++ l :: later)[earlier.length]? = some l := by simp
  refine ⟨earlier.length, ⟨⟨l, hget, htake ▸ hlt⟩, ?_⟩, hget⟩
  rintro j ⟨m, hm, hltm⟩
  -- Before that place the list is contained in the state.
  by_contra hj
  have htake : (earlier ++ l :: later).take (j + 1) = earlier.take (j + 1) :=
    List.take_append_of_le_length (by omega)
  rw [htake] at hltm
  have hle : (earlier.take (j + 1)).countP (fun x => x ≈ m) ≤ earlier.countP (fun x => x ≈ m) :=
    (List.take_sublist _ _).countP_le
  exact absurd (hle.trans (hearlier m)) (Nat.not_le.mpr hltm)

/-- What is reported is the first fact with which the list says something more often than the
state. -/
lemma removeAll_eq_error_iff : s.removeAll ms = .error l ↔
    ∃ i, IsLeast {j | s.ExceededAt ms j} i ∧ ms[i]? = some l := by
  refine ⟨exists_isLeast_of_removeAll_eq_error, ?_⟩
  rintro ⟨i, hi, hl⟩
  cases hremove : s.removeAll ms with
  | ok rest =>
    exact absurd (exists_removeAll_iff.mp ⟨rest, hremove⟩) (not_contains_of_exceededAt hi.1)
  | error m =>
    obtain ⟨j, hj, hm⟩ := exists_isLeast_of_removeAll_eq_error hremove
    obtain rfl : j = i := hj.unique hi
    rw [Option.some.inj (hl.symm.trans hm)]

/-! ## Successors -/

lemma successor_eq_error_iff {fault : Fault} :
    s.successor action ms effects = .error fault ↔
      ∃ l, s.removeAll ms = .error l ∧ fault = .invalidGrounding action (.missing l) := by
  unfold State.successor
  split
  next l hl => simp [hl, eq_comm]
  next rest hrest => simp [hrest]

lemma exists_successor_iff : (∃ t, s.successor action ms effects = .ok t) ↔ s.Contains ms := by
  rw [← exists_removeAll_iff]
  constructor
  · rintro ⟨t, ht⟩
    obtain ⟨rest, hrest, -⟩ := successor_eq_ok_iff.mp ht
    exact ⟨rest, hrest⟩
  · rintro ⟨rest, hrest⟩
    exact ⟨rest ++ effects, successor_eq_ok_iff.mpr ⟨rest, hrest, rfl⟩⟩

/-- The successor says everything as often as the state and the effects do together, less what
was matched. -/
lemma countP_of_successor (h : s.successor action ms effects = .ok t) (l : Literal) :
    t.countP (fun m => m ≈ l) = s.countP (fun m => m ≈ l) - ms.countP (fun m => m ≈ l) +
      effects.countP (fun m => m ≈ l) := by
  have hcount := (content_of_successor h).countP_eq l
  have hle := contains_of_successor h l
  rw [List.countP_append, List.countP_append] at hcount
  omega

end State

open State

/-- The successor of a state is the state with the matched facts replaced by the effects, fact by
fact.  It can be formed just if the state says all that is matched, at least as often.  Then it
says everything as often as it should, it consists of facts of the state, in their order, and
the effects behind them, and it is the same list in whichever order the facts were matched.
Otherwise the fault is that of the first fact that is matched once too often, whatever the
effects are. -/
theorem successor_replaces (action : String) (s : State) (ms effects : List Literal) :
    ((∃ t, s.successor action ms effects = .ok t) ↔
      ∀ l : Literal, ms.countP (fun m => m ≈ l) ≤ s.countP (fun m => m ≈ l)) ∧
    (∀ t, s.successor action ms effects = .ok t →
      (∀ l : Literal, t.countP (fun m => m ≈ l) =
        s.countP (fun m => m ≈ l) - ms.countP (fun m => m ≈ l) +
          effects.countP (fun m => m ≈ l)) ∧
      t.length = s.length - ms.length + effects.length ∧
      (∃ rest, rest.Sublist s ∧ t = rest ++ effects) ∧
      ∀ ns, ns.Perm ms → s.successor action ns effects = .ok t) ∧
    ∀ fault, s.successor action ms effects = .error fault ↔
      ∃ i l, IsLeast {j | s.ExceededAt ms j} i ∧ ms[i]? = some l ∧
        fault = .invalidGrounding action (.missing l) := by
  refine ⟨exists_successor_iff, fun t ht => ?_, fun fault => ?_⟩
  · obtain ⟨rest, hrest, rfl⟩ := successor_eq_ok_iff.mp ht
    have hlength := length_of_successor ht
    have hmatched : ms.length ≤ s.length := by
      have hcontent := (removeAll_eq_ok hrest).1.length_eq
      simp only [List.length_map, List.length_append] at hcontent
      omega
    refine ⟨countP_of_successor ht, by omega, ⟨rest, (removeAll_eq_ok hrest).2, rfl⟩, ?_⟩
    intro ns hns
    exact successor_eq_ok_iff.mpr ⟨rest, removeAll_of_perm hns.symm hrest, rfl⟩
  · rw [successor_eq_error_iff]
    constructor
    · rintro ⟨l, hl, rfl⟩
      obtain ⟨i, hi, hget⟩ := removeAll_eq_error_iff.mp hl
      exact ⟨i, l, hi, hget, rfl⟩
    · rintro ⟨i, l, hi, hget, rfl⟩
      exact ⟨l, removeAll_eq_error_iff.mpr ⟨i, hi, hget⟩, rfl⟩

/-- Three walkers are at the same place, from which there is a link. -/
def Walk.crowd : State :=
  [Walk.here (Walk.place "a"), Walk.here (Walk.place "a"), Walk.link (Walk.place "a")
    (Walk.place "b"), Walk.here (Walk.place "a")]

/-- Two of three walkers can leave, with the link or without it, in whichever order they are
matched; when four are to leave, it is the fourth that is missing. -/
theorem walk_successor_replaces :
    (∃ t, Walk.crowd.successor "leave"
        [Walk.here (Walk.place "a"), Walk.link (Walk.place "a") (Walk.place "b"),
          Walk.here (Walk.place "a")] [Walk.here (Walk.place "b")] = .ok t ∧
      t.countP (fun m => m ≈ Walk.here (Walk.place "a")) = 1 ∧ t.length = 2 ∧
      Walk.crowd.successor "leave"
        [Walk.link (Walk.place "a") (Walk.place "b"), Walk.here (Walk.place "a"),
          Walk.here (Walk.place "a")] [Walk.here (Walk.place "b")] = .ok t) ∧
    ∃ i, IsLeast {j | Walk.crowd.ExceededAt (List.replicate 4 (Walk.here (Walk.place "a"))) j} i ∧
      i = 3 := by
  constructor
  · obtain ⟨-, hsuccessor, -⟩ := successor_replaces "leave" Walk.crowd
      [Walk.here (Walk.place "a"), Walk.link (Walk.place "a") (Walk.place "b"),
        Walk.here (Walk.place "a")] [Walk.here (Walk.place "b")]
    obtain ⟨hcount, hlength, -, hperm⟩ := hsuccessor _ rfl
    exact ⟨_, rfl, hcount (Walk.here (Walk.place "a")), hlength, hperm _ (by decide)⟩
  · obtain ⟨-, -, hfault⟩ := successor_replaces "leave" Walk.crowd
      (List.replicate 4 (Walk.here (Walk.place "a"))) []
    obtain ⟨i, l, hi, hl, -⟩ := (hfault _).mp rfl
    have hle : i ≤ 3 := hi.2 ⟨Walk.here (Walk.place "a"), rfl, by decide⟩
    refine ⟨i, hi, Nat.le_antisymm hle ?_⟩
    obtain ⟨m, hm, hlt⟩ := hi.1
    obtain rfl : m = Walk.here (Walk.place "a") :=
      (List.mem_replicate.mp (List.mem_of_getElem? hm)).2
    have hcrowd : Walk.crowd.countP (fun m => m ≈ Walk.here (Walk.place "a")) = 3 := by decide
    have htake := hlt.trans_le (List.countP_le_length.trans (List.length_take_le _ _))
    rw [hcrowd] at htake
    exact Nat.le_of_lt_succ htake

end ClassicalPlanning
