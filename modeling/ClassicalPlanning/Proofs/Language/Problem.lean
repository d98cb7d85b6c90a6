/-
What makes a problem.

The parts of a problem are refused if one of them mentions a type that the domain does not declare,
and the fault names the first mention of such a type: objects come before the literals of the
state, these before the literals of the goal, and in each literal the arguments come from left to
right (`Domain.FirstUndeclared`).

If nothing is refused, the objects are put into groups, one for each type that occurs.  Groups come
about one object at a time: an object joins the group of its type, behind the others, or else it
begins a group, behind the other groups (`groupByType_concat`).  What the groups have to do with
the objects is kept by this step (`GroupedByType.join`), and so it holds of any objects.

The main result is `ofParts_admits`.
-/
import ClassicalPlanning.Language.Problem
import ClassicalPlanning.Proofs.Outcome
import ClassicalPlanning.Proofs.Walk
import Mathlib.Data.List.Induction

namespace ClassicalPlanning

/-! ## The first undeclared type -/

/-- The name `x` with the type `t` is the first of an object or of an argument of a literal whose
type the domain does not declare. -/
inductive Domain.FirstUndeclared (d : Domain) (objects : List Object) (state goal : List Literal) :
    String → TypeName → Prop
  /-- It is the name of an object. -/
  | object {o : Object} (h : IsFirst (fun o => ¬ d.Declares o.type) objects o) :
      d.FirstUndeclared objects state goal o.name o.type
  /-- It is the label of an argument in the state, and the objects have declared types. -/
  | state {v : Variable} (hobjects : ∀ o ∈ objects, d.Declares o.type)
      (h : IsFirst (fun v => ¬ d.Declares v.type) (state.flatMap Literal.arguments) v) :
      d.FirstUndeclared objects state goal v.label v.type
  /-- It is the label of an argument in the goal, and objects and state have declared types. -/
  | goal {v : Variable} (hobjects : ∀ o ∈ objects, d.Declares o.type)
      (hstate : ∀ l ∈ state, ∀ v ∈ l.arguments, d.Declares v.type)
      (h : IsFirst (fun v => ¬ d.Declares v.type) (goal.flatMap Literal.arguments) v) :
      d.FirstUndeclared objects state goal v.label v.type

/-! ## Groups -/

/-- The groups once one more object has joined: it stands at the end of the group of its type, or
else in a group of its own at the end. -/
def joinGroup (o : Object) : List (TypeName × List Object) → List (TypeName × List Object)
  | [] => [(o.type, [o])]
  | (t, members) :: groups =>
    if t = o.type then (t, members ++ [o]) :: groups else (t, members) :: joinGroup o groups

/-- The groups are the objects, sorted by type without a change of their order. -/
structure GroupedByType (objects : List Object) (groups : List (TypeName × List Object)) :
    Prop where
  /-- There is a group for each type that occurs, and for no other. -/
  mem_types : ∀ t, t ∈ groups.map Prod.fst ↔ t ∈ objects.map Object.type
  /-- The groups come in the order in which their types first occur, so no type has two. -/
  order : (groups.map Prod.fst).Pairwise fun t u =>
    (objects.map Object.type).idxOf t < (objects.map Object.type).idxOf u
  /-- No group is empty. -/
  nonempty : ∀ g ∈ groups, g.2 ≠ []
  /-- A group has the objects of its type, in their order and as often as they occur. -/
  members : ∀ g ∈ groups, g.2 = objects.filter fun o => o.type = g.1
  /-- Together the groups have all objects, and each as often as it occurs. -/
  perm : (groups.flatMap Prod.snd).Perm objects

section Groups

variable {o : Object} {objects : List Object} {groups : List (TypeName × List Object)}

/-- One more type is new, or it has occurred before. -/
lemma eraseDups_concat (types : List TypeName) (t : TypeName) :
    (types ++ [t]).eraseDups = types.eraseDups ++ if t ∈ types then [] else [t] := by
  rw [List.eraseDups_append]
  by_cases ht : t ∈ types <;> simp [List.removeAll, ht, List.eraseDups_cons]

/-- The types that occur in a list come in the order in which they first occur. -/
lemma pairwise_eraseDups (types : List TypeName) :
    types.eraseDups.Pairwise fun t u => types.idxOf t < types.idxOf u := by
  induction types using List.reverseRecOn with
  | nil => simp
  | append_singleton types t ih =>
    have hold : ∀ u ∈ types.eraseDups, (types ++ [t]).idxOf u = types.idxOf u :=
      fun u hu => List.idxOf_append_of_mem (List.mem_eraseDups.mp hu)
    have hearlier : types.eraseDups.Pairwise
        fun u v => (types ++ [t]).idxOf u < (types ++ [t]).idxOf v := by
      refine ih.imp_of_mem fun {u v} hu hv huv => ?_
      rwa [hold u hu, hold v hv]
    rw [eraseDups_concat]
    by_cases ht : t ∈ types
    · rwa [if_pos ht, List.append_nil]
    -- A type that is new at the end first occurs behind all the others.
    · rw [if_neg ht]
      refine List.pairwise_append.mpr ⟨hearlier, List.pairwise_singleton _ t, fun u hu v hv => ?_⟩
      obtain rfl : v = t := List.mem_singleton.mp hv
      rw [hold u hu, List.idxOf_append_of_notMem ht]
      exact Nat.lt_add_right _ (List.idxOf_lt_length_of_mem (List.mem_eraseDups.mp hu))

lemma nodup_eraseDups (types : List TypeName) : types.eraseDups.Nodup := by
  refine (pairwise_eraseDups types).imp ?_
  rintro t u htu rfl
  exact Nat.lt_irrefl _ htu

lemma filter_concat_of_ne {t : TypeName} (h : o.type ≠ t) :
    (objects ++ [o]).filter (fun o => o.type = t) = objects.filter fun o => o.type = t := by
  simp [List.filter_append, h]

/-- An object joins the group of its type, if its type is among those of the groups. -/
lemma joinGroup_map {types : List TypeName} (h : types.Nodup) :
    joinGroup o (types.map fun t => (t, objects.filter fun o => o.type = t)) =
      types.map (fun t => (t, (objects ++ [o]).filter fun o => o.type = t)) ++
        if o.type ∈ types then [] else [(o.type, [o])] := by
  induction types with
  | nil => simp [joinGroup]
  | cons t types ih =>
    obtain ⟨ht, htypes⟩ := List.nodup_cons.mp h
    rw [List.map_cons, List.map_cons, joinGroup]
    by_cases hto : t = o.type
    · subst hto
      have hrest : ∀ u ∈ types, (objects ++ [o]).filter (fun o => o.type = u) =
          objects.filter fun o => o.type = u :=
        fun u hu => filter_concat_of_ne fun h => ht (h ▸ hu)
      rw [if_pos rfl, if_pos List.mem_cons_self, List.append_nil, List.filter_append]
      simp only [List.filter_cons, List.filter_nil, decide_true, if_true]
      exact congrArg _ (List.map_congr_left fun u hu => by rw [hrest u hu])
    · have hmem : o.type ∈ t :: types ↔ o.type ∈ types := by simp [Ne.symm hto]
      rw [if_neg hto, ih htypes, filter_concat_of_ne (Ne.symm hto), List.cons_append]
      simp only [hmem]

/-- The groups of some objects and one more are those that come about when it joins. -/
lemma groupByType_concat (objects : List Object) (o : Object) :
    groupByType (objects ++ [o]) = joinGroup o (groupByType objects) := by
  rw [groupByType, groupByType, joinGroup_map (nodup_eraseDups _), List.map_append,
    List.map_singleton, eraseDups_concat, List.map_append]
  congr 1
  by_cases ho : o.type ∈ objects.map Object.type
  · rw [if_pos ho, if_pos (List.mem_eraseDups.mpr ho), List.map_nil]
  · have hnone : objects.filter (fun p => p.type = o.type) = [] := by
      refine List.filter_eq_nil_iff.mpr fun p hp h => ho ?_
      exact List.mem_map.mpr ⟨p, hp, of_decide_eq_true h⟩
    rw [if_neg ho, if_neg fun h => ho (List.mem_eraseDups.mp h)]
    simp [hnone]

lemma perm_joinGroup (o : Object) (groups : List (TypeName × List Object)) :
    ((joinGroup o groups).flatMap Prod.snd).Perm (groups.flatMap Prod.snd ++ [o]) := by
  induction groups with
  | nil => simp [joinGroup]
  | cons g groups ih =>
    obtain ⟨t, members⟩ := g
    rw [joinGroup]
    split
    · simp only [List.flatMap_cons, List.append_assoc]
      exact List.perm_append_comm.append_left members
    · simp only [List.flatMap_cons, List.append_assoc]
      exact ih.append_left members

lemma perm_groupByType (objects : List Object) :
    ((groupByType objects).flatMap Prod.snd).Perm objects := by
  induction objects using List.reverseRecOn with
  | nil => simp [groupByType]
  | append_singleton objects o ih =>
    rw [groupByType_concat]
    exact (perm_joinGroup o _).trans (ih.append_right [o])

lemma groupedByType_groupByType (objects : List Object) :
    GroupedByType objects (groupByType objects) := by
  have htypes : (groupByType objects).map Prod.fst = (objects.map Object.type).eraseDups := by
    simp [groupByType, Function.comp_def]
  have hmembers : ∀ g ∈ groupByType objects, g.1 ∈ objects.map Object.type ∧
      g.2 = objects.filter fun o => o.type = g.1 := by
    intro g hg
    obtain ⟨t, ht, rfl⟩ := List.mem_map.mp hg
    exact ⟨List.mem_eraseDups.mp ht, rfl⟩
  refine ⟨fun t => ?_, ?_, fun g hg => ?_, fun g hg => (hmembers g hg).2, perm_groupByType objects⟩
  · rw [htypes, List.mem_eraseDups]
  · rw [htypes]
    exact pairwise_eraseDups _
  · obtain ⟨hoccurs, hfilter⟩ := hmembers g hg
    obtain ⟨o, ho, htype⟩ := List.mem_map.mp hoccurs
    rw [hfilter]
    exact List.ne_nil_of_mem (List.mem_filter.mpr ⟨ho, decide_eq_true htype⟩)

end Groups

/-! ## Refusal -/

section Refusal

variable {name x : String} {t : TypeName} {d : Domain} {objects : List Object}
  {state goal : List Literal} {p : Problem} {fault : Fault}

/-- The first undeclared type is that of the first mention that has one. -/
lemma find?_mentions_eq_some_iff :
    (Problem.mentions objects state goal).find? (fun (_, type) => ¬ d.Declares type) =
      some (x, t) ↔ d.FirstUndeclared objects state goal x t := by
  simp only [Problem.mentions, List.flatMap_append, List.map_append, List.find?_append,
    List.find?_map, Function.comp_def, Option.or_eq_some_iff, Option.map_eq_some_iff,
    Option.map_eq_none_iff, List.find?_eq_none, ← isFirst_iff_find?, decide_eq_true_eq, not_not,
    List.mem_flatMap, forall_exists_index, and_imp]
  constructor
  · rintro (⟨o, ho, heq⟩ | ⟨hobjects, ⟨v, hv, heq⟩ | ⟨hstate, v, hv, heq⟩⟩)
    all_goals obtain ⟨rfl, rfl⟩ := Prod.mk.inj heq
    · exact .object ho
    · exact .state hobjects hv
    · exact .goal hobjects (fun l hl w hw => hstate w l hl hw) hv
  · rintro (ho | ⟨hobjects, hv⟩ | ⟨hobjects, hstate, hv⟩)
    · exact Or.inl ⟨_, ho, rfl⟩
    · exact Or.inr ⟨hobjects, Or.inl ⟨_, hv, rfl⟩⟩
    · exact Or.inr ⟨hobjects, Or.inr ⟨fun w l hl hw => hstate l hl w hw, _, hv, rfl⟩⟩

/-- Parts that mention an undeclared type are refused, with the fault that names the first. -/
lemma Problem.ofParts_eq_error_iff : ofParts name d objects state goal = .error fault ↔
    ∃ x t, d.FirstUndeclared objects state goal x t ∧ fault = .unknownType x t := by
  simp only [← find?_mentions_eq_some_iff]
  unfold ofParts
  constructor
  · intro h
    split at h
    next x t hfirst => exact ⟨x, t, hfirst, (Except.error.inj h).symm⟩
    next => cases h
  · rintro ⟨x, t, hfirst, rfl⟩
    rw [hfirst]

/-- Parts that mention declared types only make a problem, and it keeps them. -/
lemma Problem.eq_of_ofParts (h : ofParts name d objects state goal = .ok p) :
    p = ⟨name, d, groupByType objects, state, goal⟩ := by
  unfold ofParts at h
  split at h
  · cases h
  · exact (Except.ok.inj h).symm

/-- A type is mentioned if it is that of an object or of an argument of a literal. -/
lemma exists_mem_mentions_iff {P : TypeName → Prop} :
    (∃ m ∈ Problem.mentions objects state goal, P m.2) ↔
      (∃ o ∈ objects, P o.type) ∨ ∃ l ∈ state ++ goal, ∃ v ∈ l.arguments, P v.type := by
  constructor
  · rintro ⟨m, hm, hP⟩
    rcases List.mem_append.mp hm with hm | hm
    · obtain ⟨o, ho, rfl⟩ := List.mem_map.mp hm
      exact Or.inl ⟨o, ho, hP⟩
    · obtain ⟨v, hv, rfl⟩ := List.mem_map.mp hm
      obtain ⟨l, hl, hvl⟩ := List.mem_flatMap.mp hv
      exact Or.inr ⟨l, hl, v, hvl, hP⟩
  · rintro (⟨o, ho, hP⟩ | ⟨l, hl, v, hv, hP⟩)
    · exact ⟨_, List.mem_append_left _ (List.mem_map_of_mem ho), hP⟩
    · have hmem := List.mem_flatMap.mpr ⟨l, hl, hv⟩
      exact ⟨_, List.mem_append_right _ (List.mem_map_of_mem hmem), hP⟩

/-- Parts are refused if they mention an undeclared type anywhere. -/
lemma Problem.exists_ofParts_eq_error_iff :
    (∃ fault, ofParts name d objects state goal = .error fault) ↔
      (∃ o ∈ objects, ¬ d.Declares o.type) ∨
        ∃ l ∈ state ++ goal, ∃ v ∈ l.arguments, ¬ d.Declares v.type := by
  rw [← exists_mem_mentions_iff (P := fun t => ¬ d.Declares t), ← exists_isFirst_iff]
  simp only [isFirst_iff_find?, ofParts_eq_error_iff, ← find?_mentions_eq_some_iff]
  constructor
  · rintro ⟨-, x, t, hfirst, -⟩
    exact ⟨(x, t), hfirst⟩
  · rintro ⟨⟨x, t⟩, hfirst⟩
    exact ⟨_, x, t, hfirst, rfl⟩

end Refusal

/-- The parts of a problem are refused if an object, or an argument of a literal of the state or the
goal, has a type that the domain does not declare, and the fault names the first of these.  If they
are not refused, the problem keeps its parts as they are, save that the objects are in groups: one
for each type, in the order in which the types first occur, with the objects of the type in their
order, and nothing is lost or doubled. -/
theorem ofParts_admits (name : String) (d : Domain) (objects : List Object)
    (state goal : List Literal) :
    ((∃ fault, Problem.ofParts name d objects state goal = .error fault) ↔
      (∃ o ∈ objects, ¬ d.Declares o.type) ∨
        ∃ l ∈ state ++ goal, ∃ v ∈ l.arguments, ¬ d.Declares v.type) ∧
    (∀ fault, Problem.ofParts name d objects state goal = .error fault ↔
      ∃ x t, d.FirstUndeclared objects state goal x t ∧ fault = .unknownType x t) ∧
    ∀ p, Problem.ofParts name d objects state goal = .ok p →
      p.name = name ∧ p.domain = d ∧ p.state = state ∧ p.goal = goal ∧
        GroupedByType objects p.objects := by
  refine ⟨Problem.exists_ofParts_eq_error_iff, fun _ => Problem.ofParts_eq_error_iff,
    fun p hp => ?_⟩
  obtain rfl := Problem.eq_of_ofParts hp
  exact ⟨rfl, rfl, rfl, rfl, groupedByType_groupByType objects⟩

/-- A domain of walkers and places. -/
def Walk.country : Domain :=
  .ofDeclarations "country" ["walker", "place", "walker"] [] []

/-- Places with a walker between them, and one of the places once more. -/
def Walk.company : List Object :=
  [⟨"a", "place"⟩, ⟨"ann", "walker"⟩, ⟨"b", "place"⟩, ⟨"a", "place"⟩]

/-- The places come first, since the first object is one, and there are three of them.  A link to a
bridge is refused, because nothing is said of bridges. -/
theorem walk_ofParts_admits :
    Problem.ofParts "outing" Walk.country Walk.company [Walk.here (Walk.place "a")] [] =
      .ok ⟨"outing", Walk.country,
        [("place", [⟨"a", "place"⟩, ⟨"b", "place"⟩, ⟨"a", "place"⟩]),
          ("walker", [⟨"ann", "walker"⟩])],
        [Walk.here (Walk.place "a")], []⟩ ∧
    GroupedByType Walk.company
      [("place", [⟨"a", "place"⟩, ⟨"b", "place"⟩, ⟨"a", "place"⟩]),
        ("walker", [⟨"ann", "walker"⟩])] ∧
    Walk.country.FirstUndeclared Walk.company [Walk.here (Walk.place "a")]
      [Walk.link (Walk.place "b") ⟨"?x", "bridge", some ⟨"pont", "bridge"⟩⟩] "pont" "bridge" := by
  have hok : Problem.ofParts "outing" Walk.country Walk.company [Walk.here (Walk.place "a")] [] =
      .ok ⟨"outing", Walk.country, _, _, _⟩ := rfl
  obtain ⟨-, -, -, -, hgroups⟩ := (ofParts_admits _ _ _ _ _).2.2 _ hok
  have herror : Problem.ofParts "outing" Walk.country Walk.company [Walk.here (Walk.place "a")]
      [Walk.link (Walk.place "b") ⟨"?x", "bridge", some ⟨"pont", "bridge"⟩⟩] =
      .error (.unknownType "pont" "bridge") := rfl
  obtain ⟨x, t, hfirst, hfault⟩ := ((ofParts_admits _ _ _ _ _).2.1 _).mp herror
  obtain ⟨rfl, rfl⟩ := Fault.unknownType.inj hfault
  exact ⟨hok, hgroups, hfirst⟩

end ClassicalPlanning
