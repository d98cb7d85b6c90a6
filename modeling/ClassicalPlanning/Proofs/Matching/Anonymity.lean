/-
The names of bound variables.

A bound variable keeps the name that it had while it was free, but nothing ever comes of it.
`Variable.anonymous` takes the name away and leaves the rest, the value with its type included,
so it forgets less than what a literal says.  Matching does not see the difference
(`matchLiterals_anonymous`), so the groundings in a state of anonymous facts are those of the
state, made anonymous (`groundings_anonymous`), and they have the very same effects
(`effectsFor_anonymous`).  The same facts are taken out of the state
(`removeAll_anonymous`).

Facts that say the same are equal up to the names if they are well typed
(`anonymous_eq_of_equiv`).  In any case they are written alike, and so are plans that say the same
(`Plan.text_eq_of_equiv`).
-/
import ClassicalPlanning.Proofs.Matching.Likeness
import ClassicalPlanning.Proofs.Matching.Selection
import ClassicalPlanning.Text.PlanText

namespace ClassicalPlanning

/-- The variable without its name, if it is bound. -/
def Variable.anonymous (v : Variable) : Variable :=
  if v.isBound then { v with name := "" } else v

/-- The literal without the names of bound variables. -/
def Literal.anonymous (l : Literal) : Literal :=
  { l with arguments := l.arguments.map Variable.anonymous }

/-- The grounding without the names of bound variables. -/
def Grounding.anonymous (g : Grounding) : Grounding :=
  ⟨g.matched.map Literal.anonymous⟩

/-! ## Variables and literals -/

lemma map_eq_map_of_forall₂ {α β : Type} {r : α → α → Prop} {f : α → β} {l m : List α}
    (h : List.Forall₂ r l m) (hf : ∀ a ∈ l, ∀ b ∈ m, r a b → f a = f b) : l.map f = m.map f := by
  induction h with
  | nil => rfl
  | cons hab _ ih =>
    rw [List.map_cons, List.map_cons, hf _ List.mem_cons_self _ List.mem_cons_self hab,
      ih fun a ha b hb => hf a (List.mem_cons_of_mem _ ha) b (List.mem_cons_of_mem _ hb)]

/-- Lists with one image under a function agree place by place. -/
lemma forall₂_of_map_eq_map {α β γ : Type} {r : α → β → Prop} {f : α → γ} {g : β → γ} {l : List α}
    {m : List β} (hr : ∀ a ∈ l, ∀ b ∈ m, f a = g b → r a b) (h : l.map f = m.map g) :
    List.Forall₂ r l m := by
  rw [← List.forall₂_eq_eq_eq, List.forall₂_map_left_iff, List.forall₂_map_right_iff] at h
  induction h with
  | nil => exact .nil
  | cons hab _ ih =>
    exact .cons (hr _ List.mem_cons_self _ List.mem_cons_self hab)
      (ih fun a ha b hb => hr a (List.mem_cons_of_mem _ ha) b (List.mem_cons_of_mem _ hb))

namespace Variable

lemma anonymous_of_value_eq_none {v : Variable} (h : v.value = none) : v.anonymous = v := by
  rw [anonymous, if_neg (by simp [isBound, h])]

lemma anonymous_of_value_eq_some {v : Variable} {o : Object} (h : v.value = some o) :
    v.anonymous = ⟨"", v.type, some o⟩ := by
  rw [anonymous, if_pos (by simp [isBound, h]), h]

@[simp] lemma value_anonymous (v : Variable) : v.anonymous.value = v.value := by
  unfold anonymous
  split <;> rfl

@[simp] lemma type_anonymous (v : Variable) : v.anonymous.type = v.type := by
  unfold anonymous
  split <;> rfl

@[simp] lemma anonymous_anonymous (v : Variable) : v.anonymous.anonymous = v.anonymous := by
  unfold anonymous isBound
  split <;> simp_all

@[simp] lemma referent_anonymous (v : Variable) : v.anonymous.referent = v.referent := by
  cases h : v.value with
  | none => rw [anonymous_of_value_eq_none h]
  | some o => simp [referent, h]

lemma label_eq_of_equiv {v w : Variable} (h : v ≈ w) : v.label = w.label := by
  have hreferent := equiv_iff.mp h
  unfold referent at hreferent
  unfold label
  cases hv : v.value <;> cases hw : w.value <;> simp_all

/-- Well-typed variables that stand for the same thing differ in the names of bound variables
at most. -/
lemma anonymous_eq_of_equiv {v w : Variable} (h : v ≈ w) (hv : v.WellTyped) (hw : w.WellTyped) :
    v.anonymous = w.anonymous := by
  have hreferent := equiv_iff.mp h
  unfold referent at hreferent
  cases hvalue : v.value with
  | none =>
    cases hvalue' : w.value with
    | none =>
      rw [hvalue, hvalue', Referent.placeholder.injEq] at hreferent
      rw [anonymous_of_value_eq_none hvalue, anonymous_of_value_eq_none hvalue']
      obtain ⟨name, type, value⟩ := v
      obtain ⟨name', type', value'⟩ := w
      simp_all
    | some o' => simp [hvalue, hvalue'] at hreferent
  | some o =>
    cases hvalue' : w.value with
    | none => simp [hvalue, hvalue'] at hreferent
    | some o' =>
      rw [hvalue, hvalue', Referent.constant.injEq] at hreferent
      obtain ⟨hname, htype⟩ := hreferent
      -- The objects have the types of the variables, so they are equal.
      have hobject : o = o' := by
        have htypes : o.type = o'.type := by rw [hv o hvalue, hw o' hvalue', htype]
        obtain ⟨name, type⟩ := o
        obtain ⟨name', type'⟩ := o'
        simp_all
      rw [anonymous_of_value_eq_some hvalue, anonymous_of_value_eq_some hvalue', htype, hobject]

end Variable

namespace Literal

@[simp] lemma head_anonymous (l : Literal) : l.anonymous.head = l.head := rfl

@[simp] lemma anonymous_anonymous (l : Literal) : l.anonymous.anonymous = l.anonymous := by
  simp [anonymous, Function.comp_def]

@[simp] lemma proposition_anonymous (l : Literal) : l.anonymous.proposition = l.proposition := by
  simp [anonymous, proposition, head, Function.comp_def]

lemma wellTyped_anonymous_iff {l : Literal} : l.anonymous.WellTyped ↔ l.WellTyped := by
  simp [WellTyped, anonymous, Variable.WellTyped]

lemma anonymous_equiv_iff {l m : Literal} : l.anonymous ≈ m.anonymous ↔ l ≈ m := by
  rw [equiv_iff, equiv_iff, proposition_anonymous, proposition_anonymous]

lemma equiv_of_anonymous_eq {l m : Literal} (h : l.anonymous = m.anonymous) : l ≈ m :=
  anonymous_equiv_iff.mp (h ▸ Setoid.refl _)

lemma equiv_iff_forall₂ {l m : Literal} :
    l ≈ m ↔ l.head = m.head ∧ List.Forall₂ (· ≈ ·) l.arguments m.arguments := by
  rw [equiv_iff, proposition_eq_iff, ← List.forall₂_eq_eq_eq, List.forall₂_map_left_iff,
    List.forall₂_map_right_iff]
  exact Iff.rfl

lemma anonymous_eq_of_equiv {l m : Literal} (h : l ≈ m) (hl : l.WellTyped) (hm : m.WellTyped) :
    l.anonymous = m.anonymous := by
  obtain ⟨hhead, hall⟩ := equiv_iff_forall₂.mp h
  have harguments : l.arguments.map Variable.anonymous = m.arguments.map Variable.anonymous :=
    map_eq_map_of_forall₂ hall fun v hv w hw hvw =>
      Variable.anonymous_eq_of_equiv hvw (hl v hv) (hm w hw)
  obtain ⟨polarity, predicate, vs⟩ := l
  obtain ⟨polarity', predicate', ws⟩ := m
  simp_all [head, anonymous]

/-- What a literal says decides how it is written. -/
lemma pddl_eq_of_equiv {l m : Literal} (h : l ≈ m) : l.pddl = m.pddl := by
  obtain ⟨hhead, hall⟩ := equiv_iff_forall₂.mp h
  have hlabels : l.arguments.map Variable.label = m.arguments.map Variable.label :=
    map_eq_map_of_forall₂ hall fun _ _ _ _ hvw => Variable.label_eq_of_equiv hvw
  obtain ⟨polarity, predicate, vs⟩ := l
  obtain ⟨polarity', predicate', ws⟩ := m
  simp_all [head, pddl]

end Literal

lemma forall₂_equiv_of_anonymous {ls ms : List Literal}
    (h : ls.map Literal.anonymous = ms.map Literal.anonymous) : List.Forall₂ (· ≈ ·) ls ms :=
  forall₂_of_map_eq_map (fun _ _ _ _ => Literal.equiv_of_anonymous_eq) h

/-! ## Matching -/

namespace Substitution

variable {σ : Substitution}

@[simp] lemma matchArgument_anonymous (p v : Variable) :
    σ.matchArgument p v.anonymous = σ.matchArgument p v := by
  cases h : v.value with
  | none => rw [Variable.anonymous_of_value_eq_none h]
  | some o => simp [matchArgument, h]

@[simp] lemma matchArguments_anonymous (ps vs : List Variable) :
    σ.matchArguments ps (vs.map Variable.anonymous) = σ.matchArguments ps vs := by
  induction ps generalizing σ vs with
  | nil => simp [matchArguments]
  | cons p ps ih =>
    cases vs with
    | nil => rfl
    | cons v vs => simp only [List.map_cons, matchArguments, matchArgument_anonymous, ih]

@[simp] lemma matchLiteral_anonymous (p l : Literal) :
    σ.matchLiteral p l.anonymous = σ.matchLiteral p l := by
  simp [matchLiteral, Literal.anonymous, Literal.head]

@[simp] lemma matchLiterals_anonymous (ps ls : List Literal) :
    σ.matchLiterals ps (ls.map Literal.anonymous) = σ.matchLiterals ps ls := by
  induction ps generalizing σ ls with
  | nil => simp [matchLiterals]
  | cons p ps ih =>
    cases ls with
    | nil => rfl
    | cons l ls => simp only [List.map_cons, matchLiterals, matchLiteral_anonymous, ih]

end Substitution

lemma arrange?_anonymous (patterns facts : List Literal) (σ : Substitution) :
    arrange? patterns (facts.map Literal.anonymous) σ =
      (arrange? patterns facts σ).map (List.map Literal.anonymous) := by
  induction patterns generalizing facts σ with
  | nil => rfl
  | cons p patterns ih =>
    rw [arrange?, arrange?, picks_map, List.findSome?_map, List.map_findSome?]
    congr 1
    funext ⟨l, rest⟩
    simp only [Function.comp_apply, Prod.map_apply, Substitution.matchLiteral_anonymous]
    cases σ.matchLiteral p l with
    | error cause => rfl
    | ok τ => simp [ih, Function.comp_def]

namespace Action

lemma groundingOf?_anonymous (a : Action) (facts : List Literal) :
    a.groundingOf? (facts.map Literal.anonymous) =
      (a.groundingOf? facts).map Grounding.anonymous := by
  have hheads : (facts.map Literal.anonymous).map Literal.head = facts.map Literal.head := by
    simp [Function.comp_def]
  rw [groundingOf?, groundingOf?, hheads, List.length_map, arrange?_anonymous]
  split
  · simp [Function.comp_def, Grounding.anonymous]
  · rfl

lemma groundings_anonymous (a : Action) (s : State) :
    a.groundings (s.map Literal.anonymous) = (a.groundings s).map Grounding.anonymous := by
  rw [groundings_eq_filterMap, groundings_eq_filterMap, candidates, candidates, combinations_map,
    List.filterMap_map, List.map_filterMap]
  congr 1
  funext facts
  exact a.groundingOf?_anonymous facts

@[simp] lemma effectsFor_anonymous (a : Action) (g : Grounding) :
    a.effectsFor g.anonymous = a.effectsFor g := by
  simp [effectsFor, Grounding.anonymous, unifyAll]

end Action

/-! ## States -/

namespace State

lemma remove?_anonymous (s : State) (l : Literal) :
    State.remove? l.anonymous (s.map Literal.anonymous) =
      (s.remove? l).map (List.map Literal.anonymous) := by
  induction s with
  | nil => rfl
  | cons m s ih =>
    rw [List.map_cons, remove?, remove?]
    by_cases hm : m ≈ l
    · rw [if_pos hm, if_pos (Literal.anonymous_equiv_iff.mpr hm), Option.map_some]
    · rw [if_neg hm, if_neg (mt Literal.anonymous_equiv_iff.mp hm), ih]
      simp [Function.comp_def]

lemma removeAll_anonymous {s rest : State} {ms : List Literal} (h : s.removeAll ms = .ok rest) :
    State.removeAll (s.map Literal.anonymous) (ms.map Literal.anonymous) =
      .ok (rest.map Literal.anonymous) := by
  induction ms generalizing s with
  | nil =>
    obtain rfl : s = rest := by simpa [removeAll] using h
    rfl
  | cons m ms ih =>
    rw [removeAll] at h
    cases hm : s.remove? m with
    | none => simp [hm] at h
    | some others =>
      rw [hm] at h
      rw [List.map_cons, removeAll, remove?_anonymous, hm]
      exact ih h

lemma satisfies_iff_of_anonymous {s t : State} {goal goal' : List Literal}
    (hstate : s.map Literal.anonymous = t.map Literal.anonymous)
    (hgoal : goal.map Literal.proposition = goal'.map Literal.proposition) :
    s.Satisfies goal ↔ t.Satisfies goal' := by
  have hstate' : s.map Literal.proposition = t.map Literal.proposition := by
    have h := congrArg (List.map Literal.proposition) hstate
    simpa [Function.comp_def] using h
  rw [satisfies_iff_subset, satisfies_iff_subset, hstate', hgoal]

end State

/-! ## Plans -/

namespace Plan

variable {p q : Plan}

lemma equiv_iff_forall₂ :
    p ≈ q ↔ List.Forall₂ (fun s t => s.action = t.action ∧
      List.Forall₂ (· ≈ ·) s.matched t.matched) p.steps q.steps := by
  rw [equiv_iff, content, content, ← List.forall₂_eq_eq_eq, List.forall₂_map_left_iff,
    List.forall₂_map_right_iff]
  have hstep : ∀ s t : Plan.Step,
      (s.action, s.matched.map Literal.proposition) = (t.action, t.matched.map Literal.proposition)
        ↔ s.action = t.action ∧ List.Forall₂ (· ≈ ·) s.matched t.matched := by
    intro s t
    rw [Prod.mk.injEq, ← List.forall₂_eq_eq_eq, List.forall₂_map_left_iff,
      List.forall₂_map_right_iff]
    exact Iff.rfl
  simp only [hstep]

/-- What a plan says decides how it is written. -/
lemma text_eq_of_equiv (h : p ≈ q) : p.text = q.text := by
  have hsteps : p.steps.map Plan.Step.text = q.steps.map Plan.Step.text := by
    refine map_eq_map_of_forall₂ (equiv_iff_forall₂.mp h) fun s _ t _ hst => ?_
    obtain ⟨haction, hmatched⟩ := hst
    have hfacts := map_eq_map_of_forall₂ hmatched fun _ _ _ _ hlm => Literal.pddl_eq_of_equiv hlm
    have hquoted := congrArg (List.map ("'" ++ · ++ "'")) hfacts
    rw [List.map_map, List.map_map] at hquoted
    rw [Plan.Step.text, Plan.Step.text, haction]
    exact congrArg (fun facts => t.action ++ ": [" ++ ", ".intercalate facts ++ "]") hquoted
  have hlines := congrArg (List.map ("\n\n" ++ ·)) hsteps
  rw [List.map_map, List.map_map] at hlines
  exact congrArg (fun lines => "Actions to take, starting from the top:" ++ String.join lines)
    hlines

end Plan

end ClassicalPlanning
