/-
Literals of one predicate.

A literal that comes from the application of a predicate has the name of the predicate, and its
arguments have the types of the slots, whether they are objects or variables, free or bound.  So two
literals of one predicate, negated equally often, have everything in common that the matcher looks
at before it looks at objects, and if they do not match, it is because of objects: a constant of the
pattern meets another object, or a free variable meets objects of two names (`Clash`).

The matcher goes through the arguments from left to right, and what it expects of an argument
depends on what it has met so far.  But it comes to the same to compare each argument with what the
first free variable of its name meets, wherever this stands (`exists_matchArguments_eq_error_iff`).

The main result is `unify_of_gives`.
-/
import ClassicalPlanning.Proofs.Language.Predicate
import ClassicalPlanning.Proofs.Matching.Anonymity
import ClassicalPlanning.Proofs.Walk
import Mathlib.Logic.Function.Iterate

namespace ClassicalPlanning

/-- The literal comes from an application of the predicate, and was then negated `n` times. -/
def Predicate.Gives (p : Predicate) (n : ℕ) (l : Literal) : Prop :=
  ∃ arguments m, p.apply arguments = .ok m ∧ l = Literal.negate^[n] m

/-- The object that the argument meets in its counterpart if it is a free variable of the given
name. -/
def met (x : String) (v w : Variable) : Option Object :=
  if v.value = none ∧ v.name = x then w.value else none

/-- The object that the first free variable of the given name meets, among arguments of a pattern
with their counterparts. -/
def firstMet (x : String) (pairs : List (Variable × Variable)) : Option Object :=
  pairs.findSome? fun (v, w) => met x v w

/-- Arguments of a pattern and their counterparts clash. -/
inductive Clash (pairs : List (Variable × Variable)) : Prop
  /-- A constant meets an object of another name. -/
  | constant {v w : Variable} {o : Object} (h : (v, w) ∈ pairs) (hv : v.value = some o)
      (hne : o.name ≠ w.label)
  /-- Free variables of one name meet objects of different names. -/
  | repeated {v w v' w' : Variable} (h : (v, w) ∈ pairs) (h' : (v', w') ∈ pairs)
      (hv : v.value = none) (hv' : v'.value = none) (hname : v.name = v'.name)
      (hne : w.label ≠ w'.label)

/-! ## Arguments of the same types -/

section Arguments

variable {x : String} {v w : Variable} {vs ws : List Variable} {pairs : List (Variable × Variable)}

lemma Variable.label_of_value_eq_some {o : Object} (h : v.value = some o) : v.label = o.name := by
  rw [label, h]

@[simp] lemma firstMet_cons (x : String) (v w : Variable) (pairs : List (Variable × Variable)) :
    firstMet x ((v, w) :: pairs) = (met x v w).or (firstMet x pairs) := by
  unfold firstMet
  rw [List.findSome?_cons]
  cases h : met x v w <;> simp [h]

namespace Substitution

variable {σ ρ τ : Substitution}

/-- What is bound after an argument was bound before, or it has just been met. -/
lemma get?_of_matchArgument (h : σ.matchArgument v w = .ok ρ) (x : String) :
    ρ.get? x = (σ.get? x).or (met x v w) := by
  obtain ⟨found, hw, -, ⟨bound, hbound, -, rfl⟩ | ⟨hnone, rfl⟩⟩ := matchArgument_eq_ok_iff.mp h
  · by_cases hx : v.value = none ∧ v.name = x
    · obtain ⟨hv, rfl⟩ := hx
      rw [hv, Option.none_or] at hbound
      rw [hbound, Option.some_or]
    · rw [met, if_neg hx, Option.or_none]
  · obtain ⟨hv, hget⟩ := Option.or_eq_none_iff.mp hnone
    rw [get?_insert]
    by_cases hx : x = v.name
    · subst hx
      rw [if_pos rfl, hget, Option.none_or, met, if_pos ⟨hv, rfl⟩, hw]
    · rw [if_neg hx, met, if_neg fun h => hx h.2.symm, Option.or_none]

/-- Of a ground argument of the right type only the name of the object can be wrong. -/
lemma matchArgument_eq_error_iff (hw : w.isBound) (htype : v.type = w.type) {mismatch : Mismatch} :
    σ.matchArgument v w = .error mismatch ↔ ∃ o, v.value.or (σ.get? v.name) = some o ∧
      o.name ≠ w.label ∧ mismatch = .conflict v.name o.name w.label := by
  obtain ⟨found, hfound⟩ := Option.isSome_iff_exists.mp hw
  rw [Variable.label_of_value_eq_some hfound, matchArgument, hfound]
  cases v.value.or (σ.get? v.name) with
  | none => simp [htype]
  | some o => by_cases hname : o.name = found.name <;> simp [htype, hname, @eq_comm _ mismatch]

/-- An argument that is matched is not at odds with what is met later. -/
lemma name_eq_of_matchArgument (h : σ.matchArgument v w = .ok ρ) {o : Object}
    (ho : v.value.or ((σ.get? v.name).or (firstMet v.name ((v, w) :: pairs))) = some o) :
    o.name = w.label := by
  obtain ⟨found, hw, -, ⟨bound, hbound, hname, -⟩ | ⟨hnone, -⟩⟩ := matchArgument_eq_ok_iff.mp h
  all_goals rw [Variable.label_of_value_eq_some hw]
  · rw [← Option.or_assoc, hbound, Option.some_or, Option.some.injEq] at ho
    exact ho ▸ hname
  -- A free variable that is not bound yet is the first of its name.
  · obtain ⟨hv, hget⟩ := Option.or_eq_none_iff.mp hnone
    rw [hv, hget, firstMet_cons, met, if_pos ⟨hv, rfl⟩, hw, Option.none_or, Option.none_or,
      Option.some_or, Option.some.injEq] at ho
    rw [ho]

lemma exists_of_matchArguments_eq_error
    (h : List.Forall₂ (fun v w => Variable.isBound w ∧ Variable.type v = Variable.type w) vs ws)
    {mismatch : Mismatch} (herror : σ.matchArguments vs ws = .error mismatch) :
    ∃ x bound found, mismatch = .conflict x bound found := by
  induction h generalizing σ with
  | nil => simp [matchArguments] at herror
  | cons hvw _ ih =>
    rcases bind_eq_error_iff.mp herror with hfirst | ⟨ρ, -, hrest⟩
    · obtain ⟨o, -, -, rfl⟩ := (matchArgument_eq_error_iff hvw.1 hvw.2).mp hfirst
      exact ⟨_, _, _, rfl⟩
    · exact ih hrest

/-- What is bound after a match was bound before, or it is what the first free variable of the name
has met. -/
lemma get?_of_matchArguments (hlength : vs.length = ws.length)
    (h : σ.matchArguments vs ws = .ok τ) (x : String) :
    τ.get? x = (σ.get? x).or (firstMet x (vs.zip ws)) := by
  induction vs generalizing σ ws with
  | nil =>
    obtain rfl : σ = τ := by simpa [matchArguments] using h
    simp [firstMet]
  | cons v vs ih =>
    obtain _ | ⟨w, ws⟩ := ws
    · simp at hlength
    · obtain ⟨ρ, hρ, hrest⟩ := matchArguments_cons_eq_ok_iff.mp h
      rw [ih (by simpa using hlength) hrest, get?_of_matchArgument hρ, List.zip_cons_cons,
        firstMet_cons, Option.or_assoc]

/-- A match of ground arguments of the right types fails if one of them has not the name of what is
expected there: the constant, what is bound, or what the first free variable of the name meets. -/
lemma exists_matchArguments_eq_error_iff
    (h : List.Forall₂ (fun v w => Variable.isBound w ∧ Variable.type v = Variable.type w) vs ws) :
    (∃ mismatch, σ.matchArguments vs ws = .error mismatch) ↔
      ∃ vw ∈ vs.zip ws, ∃ o, vw.1.value.or ((σ.get? vw.1.name).or
        (firstMet vw.1.name (vs.zip ws))) = some o ∧ o.name ≠ vw.2.label := by
  induction h generalizing σ with
  | nil => simp [matchArguments]
  | @cons v w vs ws hvw _ ih =>
    rw [List.zip_cons_cons, matchArguments]
    cases hfirst : σ.matchArgument v w with
    | error mismatch =>
      obtain ⟨o, ho, hne, -⟩ := (matchArgument_eq_error_iff hvw.1 hvw.2).mp hfirst
      refine iff_of_true ⟨mismatch, rfl⟩ ⟨(v, w), List.mem_cons_self, o, ?_, hne⟩
      rw [← Option.or_assoc, ho, Option.some_or]
    | ok ρ =>
      have hexpected : ∀ x, (ρ.get? x).or (firstMet x (vs.zip ws)) =
          (σ.get? x).or (firstMet x ((v, w) :: vs.zip ws)) := fun x => by
        rw [get?_of_matchArgument hfirst, firstMet_cons, Option.or_assoc]
      have hagrees : ∀ o, v.value.or ((σ.get? v.name).or
          (firstMet v.name ((v, w) :: vs.zip ws))) = some o → o.name = w.label :=
        fun o => name_eq_of_matchArgument hfirst
      change (∃ mismatch, ρ.matchArguments vs ws = .error mismatch) ↔ _
      simp only [ih, hexpected, List.exists_mem_cons_iff]
      refine (or_iff_right ?_).symm
      rintro ⟨o, ho, hne⟩
      exact hne (hagrees o ho)

end Substitution

/-- What is met under a name is an object that a free variable of the name meets. -/
lemma exists_of_firstMet {o : Object} (h : firstMet x pairs = some o) :
    ∃ v w, (v, w) ∈ pairs ∧ v.value = none ∧ v.name = x ∧ w.value = some o := by
  obtain ⟨⟨v, w⟩, hmem, hmet⟩ := List.exists_of_findSome?_eq_some h
  simp only [met] at hmet
  split at hmet
  next hv => exact ⟨v, w, hmem, hv.1, hv.2, hmet⟩
  next => cases hmet

/-- A free variable meets something, and so does the first of its name. -/
lemma exists_firstMet (h : (v, w) ∈ pairs) (hv : v.value = none) (hw : w.isBound) :
    ∃ o, firstMet v.name pairs = some o := by
  refine Option.isSome_iff_exists.mp (List.findSome?_isSome_iff.mpr ⟨(v, w), h, ?_⟩)
  change (met v.name v w).isSome
  rwa [met, if_pos ⟨hv, rfl⟩]

/-- Some argument is at odds with what is expected there just if the arguments clash. -/
lemma clash_iff (hground : ∀ vw ∈ pairs, vw.2.isBound) : Clash pairs ↔
    ∃ vw ∈ pairs, ∃ o, vw.1.value.or (firstMet vw.1.name pairs) = some o ∧
      o.name ≠ vw.2.label := by
  constructor
  · rintro (⟨h, hv, hne⟩ | @⟨v, w, v', w', h, h', hv, hv', hname, hne⟩)
    · exact ⟨_, h, _, by rw [hv, Option.some_or], hne⟩
    -- The first object that is met under the name cannot be both.
    · obtain ⟨o, ho⟩ := exists_firstMet h hv (hground _ h)
      by_cases how : o.name = w.label
      · exact ⟨(v', w'), h', o, by rw [hv', Option.none_or, ← hname, ho], fun h => hne (how ▸ h)⟩
      · exact ⟨(v, w), h, o, by rw [hv, Option.none_or, ho], how⟩
  · rintro ⟨⟨v, w⟩, h, o, ho, hne⟩
    cases hv : v.value with
    | some constant =>
      rw [hv, Option.some_or, Option.some.injEq] at ho
      exact .constant h hv (ho ▸ hne)
    | none =>
      rw [hv, Option.none_or] at ho
      obtain ⟨v', w', h', hv', hname, hw'⟩ := exists_of_firstMet ho
      refine .repeated h' h hv' hv hname ?_
      rwa [Variable.label_of_value_eq_some hw']

end Arguments

/-! ## Literals of one predicate -/

section Literals

variable {p : Predicate} {n : ℕ} {l g : Literal} {σ : Substitution}

lemma Literal.iterate_negate (n : ℕ) (l : Literal) :
    negate^[n] l = { l with polarity := Polarity.flip^[n] l.polarity } := by
  induction n with
  | zero => rfl
  | succ n ih => rw [Function.iterate_succ_apply', Function.iterate_succ_apply', ih, negate]

/-- What is known of the literals of a predicate, apart from their objects. -/
lemma Predicate.Gives.shape (h : p.Gives n l) : l.head = ⟨Polarity.flip^[n] .positive, p.name⟩ ∧
    l.arguments.map Variable.type = p.slots.map Variable.type := by
  obtain ⟨arguments, m, hm, rfl⟩ := h
  have htypes := types_of_apply hm
  obtain ⟨-, vs, -, rfl⟩ := apply_eq_ok_iff.mp hm
  rw [Literal.iterate_negate]
  exact ⟨rfl, htypes⟩

lemma length_eq_of_gives (hl : p.Gives n l) (hg : p.Gives n g) :
    l.arguments.length = g.arguments.length := by
  simpa using congrArg List.length (hl.shape.2.trans hg.shape.2.symm)

/-- Of literals of one predicate the matcher has only the arguments to go through. -/
lemma unify_eq_of_gives (hl : p.Gives n l) (hg : p.Gives n g) :
    l.unify g = Substitution.matchArguments ∅ l.arguments g.arguments := by
  have hhead : l.head = g.head := hl.shape.1.trans hg.shape.1.symm
  rw [Literal.unify, Substitution.matchLiteral, if_neg (not_not.mpr hhead),
    if_neg (not_not.mpr (length_eq_of_gives hl hg))]

lemma forall₂_arguments_of_gives (hl : p.Gives n l) (hg : p.Gives n g) (hground : g.isGround) :
    List.Forall₂ (fun v w => Variable.isBound w ∧ Variable.type v = Variable.type w)
      l.arguments g.arguments :=
  forall₂_of_map_eq_map (fun _ _ w hw htype => ⟨List.all_eq_true.mp hground w hw, htype⟩)
    (hl.shape.2.trans hg.shape.2.symm)

lemma exists_unify_eq_error_iff_clash (hl : p.Gives n l) (hg : p.Gives n g) (hground : g.isGround) :
    (∃ mismatch, l.unify g = .error mismatch) ↔ Clash (l.arguments.zip g.arguments) := by
  have hbound : ∀ vw ∈ l.arguments.zip g.arguments, vw.2.isBound :=
    fun vw hvw => List.all_eq_true.mp hground vw.2 (List.of_mem_zip hvw).2
  rw [unify_eq_of_gives hl hg, clash_iff hbound, Substitution.exists_matchArguments_eq_error_iff
    (forall₂_arguments_of_gives hl hg hground)]
  simp only [Substitution.get?_empty, Option.none_or]

lemma get?_of_unify (hl : p.Gives n l) (hg : p.Gives n g) (h : l.unify g = .ok σ) (x : String) :
    σ.get? x = firstMet x (l.arguments.zip g.arguments) := by
  rw [unify_eq_of_gives hl hg] at h
  rw [Substitution.get?_of_matchArguments (length_eq_of_gives hl hg) h, Substitution.get?_empty,
    Option.none_or]

/-- A free variable is bound to an object of the name of its counterpart, as nothing clashes. -/
lemma exists_get?_of_unify (hl : p.Gives n l) (hg : p.Gives n g) (hground : g.isGround)
    (h : l.unify g = .ok σ) {v w : Variable} (hvw : (v, w) ∈ l.arguments.zip g.arguments)
    (hv : v.value = none) : ∃ o, σ.get? v.name = some o ∧ o.name = w.label := by
  have hw : w.isBound := List.all_eq_true.mp hground w (List.of_mem_zip hvw).2
  obtain ⟨o, ho⟩ := exists_firstMet hvw hv hw
  obtain ⟨v', w', hvw', hv', hname, hw'⟩ := exists_of_firstMet ho
  refine ⟨o, (get?_of_unify hl hg h v.name).trans ho, ?_⟩
  by_contra hne
  rw [← Variable.label_of_value_eq_some hw'] at hne
  obtain ⟨mismatch, herror⟩ :=
    (exists_unify_eq_error_iff_clash hl hg hground).mpr (.repeated hvw' hvw hv' hv hname hne)
  rw [h] at herror
  cases herror

end Literals

/-- A predicate can be applied to arguments just if they match its slots in number and in type; a
wrong number is found first, and then the first argument of a wrong type.  A pattern and a ground
literal that come from applications of one predicate and were negated equally often can only fail to
match by a conflict, and they do so just if their arguments clash.  Otherwise the match binds the
names of the free variables, and no others, each to the object that its first free variable meets;
and this has the name of the object that any free variable of the name meets. -/
theorem unify_of_gives (p : Predicate) :
    (∀ arguments, (∃ l, p.apply arguments = .ok l) ↔
      List.Forall₂ (fun slot argument => Argument.type argument = Variable.type slot)
        p.slots arguments) ∧
    (∀ arguments fault, p.apply arguments = .error fault ↔
      (arguments.length ≠ p.arity ∧ fault = .arityMismatch p.name p.arity arguments.length) ∨
      (arguments.length = p.arity ∧ ∃ slot argument,
        IsFirst (fun sa => Argument.type sa.2 ≠ Variable.type sa.1)
          (p.slots.zip arguments) (slot, argument) ∧
        fault = .typeMismatch (argument.nameIn slot) slot.type argument.type)) ∧
    ∀ n l g, p.Gives n l → p.Gives n g → g.isGround →
      (∀ mismatch, l.unify g = .error mismatch →
        ∃ x bound found, mismatch = .conflict x bound found) ∧
      ((∃ mismatch, l.unify g = .error mismatch) ↔ Clash (l.arguments.zip g.arguments)) ∧
      ∀ σ, l.unify g = .ok σ →
        (∀ x, σ.get? x = firstMet x (l.arguments.zip g.arguments)) ∧
        ∀ v w, (v, w) ∈ l.arguments.zip g.arguments → v.value = none →
          ∃ o, σ.get? v.name = some o ∧ o.name = w.label := by
  refine ⟨fun _ => Predicate.exists_apply_eq_ok_iff, fun _ _ => Predicate.apply_eq_error_iff,
    fun n l g hl hg hground => ⟨fun mismatch h => ?_,
      exists_unify_eq_error_iff_clash hl hg hground, fun σ h => ⟨get?_of_unify hl hg h, ?_⟩⟩⟩
  · rw [unify_eq_of_gives hl hg] at h
    exact Substitution.exists_of_matchArguments_eq_error
      (forall₂_arguments_of_gives hl hg hground) h
  · exact fun v w hvw hv => exists_get?_of_unify hl hg hground h hvw hv

/-- The predicate of links, where the place that comes second is given. -/
def Walk.linkToB : Predicate :=
  ⟨"link", [Walk.free "?x", Walk.place "b"]⟩

lemma Walk.gives_link {v w : Variable} (h : v.type = "place") (h' : w.type = "place") :
    Walk.linkToB.Gives 1 (Walk.link v w).negate := by
  refine ⟨[.variable v, .variable w], Walk.link v w, ?_, rfl⟩
  simp [Predicate.apply_eq_ok_iff, Walk.linkToB, Predicate.arity, Argument.fillSlot, h, h', free,
    place, Variable.free, Variable.fill, Walk.link, pure, Except.pure, bind, Except.bind]

/-- The absence of a link from a place to itself does not match that of a link between two places,
and it matches the absence of a link that leads from a place to itself. -/
theorem walk_unify_of_gives :
    Walk.linkToB.Gives 1 (Walk.link (Walk.free "?a") (Walk.free "?a")).negate ∧
    Walk.linkToB.Gives 1 (Walk.link (Walk.place "a") (Walk.place "b")).negate ∧
    (∃ mismatch, (Walk.link (Walk.free "?a") (Walk.free "?a")).negate.unify
      (Walk.link (Walk.place "a") (Walk.place "b")).negate = .error mismatch) ∧
    (∃ σ, (Walk.link (Walk.free "?a") (Walk.free "?a")).negate.unify
      (Walk.link (Walk.place "b") (Walk.place "b")).negate = .ok σ ∧
        σ.get? "?a" = some ⟨"b", "place"⟩) := by
  have hloop := Walk.gives_link (v := Walk.free "?a") (w := Walk.free "?a") rfl rfl
  have hab := Walk.gives_link (v := Walk.place "a") (w := Walk.place "b") rfl rfl
  have hbb := Walk.gives_link (v := Walk.place "b") (w := Walk.place "b") rfl rfl
  obtain ⟨-, hclash, -⟩ := (unify_of_gives Walk.linkToB).2.2 1 _ _ hloop hab rfl
  obtain ⟨-, -, hbinds⟩ := (unify_of_gives Walk.linkToB).2.2 1 _ _ hloop hbb rfl
  refine ⟨hloop, hab, hclash.mpr ?_, _, rfl, ((hbinds _ rfl).1 "?a").trans rfl⟩
  exact .repeated List.mem_cons_self (List.mem_cons_of_mem _ List.mem_cons_self) rfl rfl rfl
    (by decide)

end ClassicalPlanning
