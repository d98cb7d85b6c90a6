/-
The names of free variables.

The literals of an action share variables by name, and that is all that the names are good for:
when the free variables get other names, different ones for different names, the action has the
same groundings, and each of them gives effects that are equal but for the names that their
variables keep (`Action.Renamed.groundings_eq`, `Action.Renamed.endAlike_effectsFor`).  A fault
may name the variable that it is about, so it may differ in this (`Fault.SameKind`).

Constants have names too, but nobody asks for them, so they are left as they are, also where a
free variable has the name of a constant.

The substitutions that come up on the two sides bind the new names to what the others bind the
old ones to (`Substitution.Renamed`).  That they stay so when a name is bound is where different
names have to stay different.
-/
import ClassicalPlanning.Proofs.Matching.Anonymity

namespace ClassicalPlanning

/-- The variable with the new name, if it is free. -/
def Variable.rename (f : String → String) (v : Variable) : Variable :=
  if v.isBound then v else { v with name := f v.name }

/-- The literal with the new names of its free variables. -/
def Literal.rename (f : String → String) (l : Literal) : Literal :=
  { l with arguments := l.arguments.map (Variable.rename f) }

/-- The names of the free variables of some literals. -/
def freeNames (ls : List Literal) : Set String :=
  { x | ∃ l ∈ ls, ∃ v ∈ l.arguments, v.value = none ∧ v.name = x }

/-- The action `b` is the action `a` with new names of the free variables of its preconditions and
effects, where different names stay different.  The parameters are only shown, so they may be
any. -/
structure Action.Renamed (f : String → String) (a b : Action) : Prop where
  name : b.name = a.name
  preconditions : b.preconditions = a.preconditions.map (Literal.rename f)
  effects : b.effects = a.effects.map (Literal.rename f)
  injOn : Set.InjOn f (freeNames (a.preconditions ++ a.effects))

/-- The action with new names of the free variables of its preconditions and effects. -/
def Action.rename (f : String → String) (a : Action) : Action :=
  { a with
    preconditions := a.preconditions.map (Literal.rename f)
    effects := a.effects.map (Literal.rename f) }

/-- The mismatches are of one kind and differ in the name of the pattern's variable at most. -/
inductive Mismatch.SameKind : Mismatch → Mismatch → Prop
  /-- The mismatch names no variable of the pattern. -/
  | same (cause : Mismatch) : SameKind cause cause
  /-- A variable of the pattern has another type than its counterpart. -/
  | type (x y : String) : SameKind (.type x) (.type y)
  /-- A variable of the pattern would have to stand for two objects. -/
  | conflict (x y bound found : String) :
      SameKind (.conflict x bound found) (.conflict y bound found)

/-- The faults are of one kind and differ in the names of schema variables at most. -/
inductive Fault.SameKind : Fault → Fault → Prop
  /-- A variable meets an object of another type. -/
  | typeMismatch (x y : String) (expected actual : TypeName) :
      SameKind (.typeMismatch x expected actual) (.typeMismatch y expected actual)
  /-- An effect uses a variable that no precondition binds. -/
  | unboundEffectVariable (action x y : String) :
      SameKind (.unboundEffectVariable action x) (.unboundEffectVariable action y)
  /-- The facts do not match the preconditions. -/
  | unmatched (action : String) {cause cause' : Mismatch} (h : cause.SameKind cause') :
      SameKind (.invalidGrounding action (.unmatched cause))
        (.invalidGrounding action (.unmatched cause'))

/-- The second substitution binds the new names to what the first one binds the old ones to. -/
def Substitution.Renamed (f : String → String) (names : Set String) (σ τ : Substitution) : Prop :=
  ∀ x ∈ names, τ.get? (f x) = σ.get? x

variable {f : String → String} {names : Set String}

/-! ## Variables and literals -/

lemma Variable.rename_of_value_eq_some {v : Variable} {o : Object} (h : v.value = some o) :
    v.rename f = v := by
  rw [rename, if_pos (by simp [isBound, h])]

lemma Variable.rename_of_value_eq_none {v : Variable} (h : v.value = none) :
    v.rename f = { v with name := f v.name } := by
  rw [rename, if_neg (by simp [isBound, h])]

@[simp] lemma Variable.value_rename (v : Variable) : (v.rename f).value = v.value := by
  unfold rename
  split <;> rfl

@[simp] lemma Variable.type_rename (v : Variable) : (v.rename f).type = v.type := by
  unfold rename
  split <;> rfl

@[simp] lemma Literal.head_rename (l : Literal) : (l.rename f).head = l.head := rfl

lemma freeNames_cons_subset_iff {l : Literal} {ls : List Literal} :
    freeNames (l :: ls) ⊆ names ↔ freeNames [l] ⊆ names ∧ freeNames ls ⊆ names := by
  simp [freeNames, Set.subset_def, or_imp, forall_and]

lemma freeNames_append_left (ls ms : List Literal) : freeNames ls ⊆ freeNames (ls ++ ms) := by
  rintro x ⟨l, hl, hx⟩
  exact ⟨l, List.mem_append_left ms hl, hx⟩

lemma freeNames_append_right (ls ms : List Literal) : freeNames ms ⊆ freeNames (ls ++ ms) := by
  rintro x ⟨l, hl, hx⟩
  exact ⟨l, List.mem_append_right ls hl, hx⟩

lemma name_mem_of_freeNames_subset {l : Literal} (h : freeNames [l] ⊆ names) :
    ∀ v ∈ l.arguments, v.value = none → v.name ∈ names :=
  fun v hv hfree => h ⟨l, List.mem_singleton_self l, v, hv, hfree, rfl⟩

/-! ## Matching -/

namespace Substitution

variable {σ τ : Substitution}

lemma renamed_empty : Renamed f names ∅ ∅ := fun _ _ => rfl

/-- A name that is bound on both sides is bound to the same object on both sides. -/
lemma Renamed.or_get? (h : Renamed f names σ τ) {v : Variable}
    (hv : v.value = none → v.name ∈ names) :
    (v.rename f).value.or (τ.get? (v.rename f).name) = v.value.or (σ.get? v.name) := by
  cases hvalue : v.value with
  | some o => rw [Variable.value_rename, hvalue, Option.some_or, Option.some_or]
  | none =>
    rw [Variable.rename_of_value_eq_none hvalue]
    simp only [hvalue, Option.none_or]
    exact h _ (hv hvalue)

lemma Renamed.insert (hf : Set.InjOn f names) (h : Renamed f names σ τ) {x : String}
    (hx : x ∈ names) (o : Object) : Renamed f names (σ.insert x o) (τ.insert (f x) o) := by
  intro y hy
  rw [get?_insert, get?_insert, h y hy]
  simp only [hf.eq_iff hy hx]

section Matches

variable (hf : Set.InjOn f names)

include hf

lemma endAlike_matchArgument (h : Renamed f names σ τ) {p : Variable}
    (hp : p.value = none → p.name ∈ names) (v : Variable) :
    EndAlike Mismatch.SameKind (Renamed f names) (σ.matchArgument p v)
      (τ.matchArgument (p.rename f) v) := by
  unfold matchArgument
  rw [h.or_get? hp, Variable.type_rename]
  cases v.value with
  | none => exact .error (.same _)
  | some found =>
    by_cases htype : p.type = v.type
    · simp only [if_pos htype]
      cases hbound : p.value.or (σ.get? p.name) with
      | none =>
        -- The variable is free, and its name is bound now.
        have hfree := (Option.or_eq_none_iff.mp hbound).1
        rw [Variable.rename_of_value_eq_none hfree]
        exact .ok (h.insert hf (hp hfree) found)
      | some bound =>
        by_cases hname : bound.name = found.name
        · simp only [if_pos hname]
          exact .ok h
        · simp only [if_neg hname]
          exact .error (.conflict _ _ _ _)
    · simp only [if_neg htype]
      exact .error (.type _ _)

lemma endAlike_matchArguments (h : Renamed f names σ τ) {ps : List Variable}
    (hps : ∀ p ∈ ps, p.value = none → p.name ∈ names) (vs : List Variable) :
    EndAlike Mismatch.SameKind (Renamed f names) (σ.matchArguments ps vs)
      (τ.matchArguments (ps.map (Variable.rename f)) vs) := by
  induction ps generalizing σ τ vs with
  | nil => simpa [matchArguments] using .ok h
  | cons p ps ih =>
    obtain ⟨hp, hps⟩ := List.forall_mem_cons.mp hps
    cases vs with
    | nil => exact .ok h
    | cons v vs =>
      rw [List.map_cons, matchArguments, matchArguments]
      exact (endAlike_matchArgument hf h hp v).bind fun _ _ h' => ih h' hps vs

lemma endAlike_matchLiteral (h : Renamed f names σ τ) {p : Literal} (hp : freeNames [p] ⊆ names)
    (l : Literal) :
    EndAlike Mismatch.SameKind (Renamed f names) (σ.matchLiteral p l)
      (τ.matchLiteral (p.rename f) l) := by
  unfold matchLiteral
  rw [Literal.head_rename]
  by_cases hhead : p.head ≠ l.head
  · simp only [if_pos hhead]
    exact .error (.same _)
  · have hlength : (p.rename f).arguments.length = p.arguments.length := List.length_map _
    simp only [if_neg hhead, hlength]
    by_cases harity : p.arguments.length ≠ l.arguments.length
    · simp only [if_pos harity]
      exact .error (.same _)
    · simp only [if_neg harity]
      exact endAlike_matchArguments hf h (name_mem_of_freeNames_subset hp) l.arguments

lemma endAlike_matchLiterals (h : Renamed f names σ τ) {ps : List Literal}
    (hps : freeNames ps ⊆ names) (ls : List Literal) :
    EndAlike Mismatch.SameKind (Renamed f names) (σ.matchLiterals ps ls)
      (τ.matchLiterals (ps.map (Literal.rename f)) ls) := by
  induction ps generalizing σ τ ls with
  | nil => simpa [matchLiterals] using .ok h
  | cons p ps ih =>
    obtain ⟨hp, hps⟩ := freeNames_cons_subset_iff.mp hps
    cases ls with
    | nil => exact .ok h
    | cons l ls =>
      rw [List.map_cons, matchLiterals, matchLiterals]
      exact (endAlike_matchLiteral hf h hp l).bind fun _ _ h' => ih h' hps ls

/-- The first arrangement that matches is the same one. -/
lemma arrange?_rename (h : Renamed f names σ τ) {ps : List Literal} (hps : freeNames ps ⊆ names)
    (facts : List Literal) :
    arrange? (ps.map (Literal.rename f)) facts τ = arrange? ps facts σ := by
  induction ps generalizing σ τ facts with
  | nil => rfl
  | cons p ps ih =>
    obtain ⟨hp, hps⟩ := freeNames_cons_subset_iff.mp hps
    rw [List.map_cons, arrange?, arrange?]
    congr 1
    funext pick
    obtain ⟨l, rest⟩ := pick
    have halike := endAlike_matchLiteral hf h hp l
    dsimp only
    generalize σ.matchLiteral p l = x at halike
    generalize τ.matchLiteral (p.rename f) l = y at halike
    cases halike with
    | ok h' => simp only [ih h' hps rest]
    | error => rfl

end Matches

/-! ## Effects -/

lemma endAlike_applyVariable (h : Renamed f names σ τ) (action : String) {v : Variable}
    (hv : v.value = none → v.name ∈ names) :
    EndAlike Fault.SameKind (fun w w' => w.anonymous = w'.anonymous) (σ.applyVariable action v)
      (τ.applyVariable action (v.rename f)) := by
  cases hvalue : v.value with
  | some o =>
    rw [Variable.rename_of_value_eq_some hvalue]
    simp only [applyVariable, Variable.isBound, hvalue, Option.isSome_some, if_true]
    exact .ok rfl
  | none =>
    rw [Variable.rename_of_value_eq_none hvalue]
    simp only [applyVariable, Variable.isBound, hvalue, Option.isSome_none, Bool.false_eq_true,
      if_false, h _ (hv hvalue)]
    cases σ.get? v.name with
    | none => exact .error (.unboundEffectVariable action _ _)
    | some o =>
      unfold Variable.bind
      by_cases htype : o.type = v.type
      · simp only [if_pos htype]
        exact .ok (by simp [Variable.fill, Variable.anonymous, Variable.isBound])
      · simp only [if_neg htype]
        exact .error (.typeMismatch _ _ _ _)

lemma endAlike_applyLiteral (h : Renamed f names σ τ) (action : String) {e : Literal}
    (he : freeNames [e] ⊆ names) :
    EndAlike Fault.SameKind (fun l l' => l.anonymous = l'.anonymous) (σ.applyLiteral action e)
      (τ.applyLiteral action (e.rename f)) := by
  have harguments : List.Forall₂ (fun v w => EndAlike Fault.SameKind
      (fun v' w' => v'.anonymous = w'.anonymous) (σ.applyVariable action v)
      (τ.applyVariable action w)) e.arguments (e.rename f).arguments := by
    rw [Literal.rename, List.forall₂_map_right_iff]
    exact List.forall₂_same.mpr fun v hv =>
      endAlike_applyVariable h action (name_mem_of_freeNames_subset he v hv)
  refine (EndAlike.mapM harguments).bind fun vs ws hvs => .ok ?_
  rw [Literal.anonymous, Literal.anonymous,
    map_eq_map_of_forall₂ hvs fun _ _ _ _ hvw => hvw]
  rfl

end Substitution

/-! ## Actions -/

lemma Action.renamed_rename {a : Action}
    (hf : Set.InjOn f (freeNames (a.preconditions ++ a.effects))) : a.Renamed f (a.rename f) :=
  ⟨rfl, rfl, rfl, hf⟩

namespace Action.Renamed

variable {a b : Action}

lemma groundings_eq (h : a.Renamed f b) (s : State) : b.groundings s = a.groundings s := by
  have hps := freeNames_append_left a.preconditions a.effects
  unfold Action.groundings
  rw [h.preconditions, List.map_map]
  congr 1
  funext facts
  rw [Substitution.arrange?_rename h.injOn Substitution.renamed_empty hps facts]

/-- The same facts, whether they fill the preconditions or not, give effects that are equal but
for the names of bound variables, or faults of one kind. -/
lemma endAlike_effectsFor (h : a.Renamed f b) (g : Grounding) :
    EndAlike Fault.SameKind
      (fun es es' => es.map Literal.anonymous = es'.map Literal.anonymous)
      (a.effectsFor g) (b.effectsFor g) := by
  have hps := freeNames_append_left a.preconditions a.effects
  have hes := freeNames_append_right a.preconditions a.effects
  have hmatch :=
    Substitution.endAlike_matchLiterals h.injOn Substitution.renamed_empty hps g.matched
  unfold Action.effectsFor unifyAll
  rw [h.preconditions, h.effects, h.name]
  generalize Substitution.matchLiterals ∅ a.preconditions g.matched = x at hmatch
  generalize Substitution.matchLiterals ∅ (a.preconditions.map (Literal.rename f)) g.matched = y
    at hmatch
  cases hmatch with
  | error hkind => exact .error (.unmatched _ hkind)
  | @ok σ τ hστ =>
    have heffects : List.Forall₂ (fun e e' => EndAlike Fault.SameKind
        (fun l l' => l.anonymous = l'.anonymous) (σ.applyLiteral a.name e)
        (τ.applyLiteral a.name e')) a.effects (a.effects.map (Literal.rename f)) := by
      rw [List.forall₂_map_right_iff]
      refine List.forall₂_same.mpr fun e he => Substitution.endAlike_applyLiteral hστ a.name ?_
      rintro x ⟨l, hl, hx⟩
      obtain rfl := List.mem_singleton.mp hl
      exact hes ⟨l, he, hx⟩
    exact (EndAlike.mapM heffects).imp (fun _ _ hkind => hkind) fun _ _ hls =>
      map_eq_map_of_forall₂ hls fun _ _ _ _ hlm => hlm

end Action.Renamed

end ClassicalPlanning
