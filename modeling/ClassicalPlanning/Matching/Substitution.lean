/-
Substitutions.

A substitution binds finitely many variable names to objects.  Its bindings are kept in
the order of the names, so that two substitutions with the same bindings are equal and
the order in which bindings were made leaves no trace.  Everything about a substitution
is said through `Substitution.get?`.
-/
import ClassicalPlanning.Language.Predicate

namespace ClassicalPlanning

/-- A finite map from variable names to objects. -/
structure Substitution where
  /-- The names with their objects. -/
  bindings : List (String × Object)
  /-- The names ascend, so none occurs twice. -/
  ascending : bindings.Pairwise (fun b c => b.1 < c.1)
deriving DecidableEq, Repr

namespace Substitution

/-- The substitution without bindings. -/
def empty : Substitution := ⟨[], .nil⟩

instance : EmptyCollection Substitution := ⟨empty⟩

/-- The object bound to a name. -/
def get? (σ : Substitution) (name : String) : Option Object :=
  σ.bindings.lookup name

/-- Places a binding among ascending ones, instead of the one of the same name if there
is one. -/
def place (name : String) (o : Object) : List (String × Object) → List (String × Object)
  | [] => [(name, o)]
  | b :: bs =>
    if name < b.1 then (name, o) :: b :: bs
    else if b.1 < name then b :: place name o bs
    else (name, o) :: bs

theorem mem_place {name : String} {o : Object} {bs : List (String × Object)}
    {c : String × Object} (h : c ∈ place name o bs) : c = (name, o) ∨ c ∈ bs := by
  induction bs with
  | nil => simpa [place] using h
  | cons b bs ih =>
    simp only [place] at h
    split at h
    · simpa using h
    · split at h
      · rcases List.mem_cons.1 h with rfl | h
        · simp
        · rcases ih h with h | h <;> simp [h]
      · rcases List.mem_cons.1 h with h | h <;> simp [h]

theorem pairwise_place {name : String} {o : Object} {bs : List (String × Object)}
    (h : bs.Pairwise (fun b c => b.1 < c.1)) :
    (place name o bs).Pairwise (fun b c => b.1 < c.1) := by
  induction bs with
  | nil => simp [place]
  | cons b bs ih =>
    obtain ⟨hb, hbs⟩ := List.pairwise_cons.1 h
    simp only [place]
    split
    next hlt =>
      refine List.pairwise_cons.2 ⟨fun c hc => ?_, h⟩
      rcases List.mem_cons.1 hc with rfl | hc
      · exact hlt
      · exact String.lt_trans hlt (hb c hc)
    next hnlt =>
      split
      next hlt =>
        refine List.pairwise_cons.2 ⟨fun c hc => ?_, ih hbs⟩
        rcases mem_place hc with rfl | hc
        · exact hlt
        · exact hb c hc
      next hngt =>
        have heq : name = b.1 := String.le_antisymm hngt hnlt
        exact List.pairwise_cons.2 ⟨fun c hc => heq ▸ hb c hc, hbs⟩

/-- The substitution with `name` bound to `o`, whatever it was bound to. -/
def insert (σ : Substitution) (name : String) (o : Object) : Substitution :=
  ⟨place name o σ.bindings, pairwise_place σ.ascending⟩

/-- The substitution with the given bindings; of several for one name the last counts. -/
def ofList (bindings : List (String × Object)) : Substitution :=
  bindings.foldl (fun σ (name, o) => σ.insert name o) ∅

/-- A substitution extends another when it keeps every binding of it. -/
def Extends (σ τ : Substitution) : Prop :=
  ∀ name o, τ.get? name = some o → σ.get? name = some o

@[simp] theorem get?_empty (name : String) : (∅ : Substitution).get? name = none := rfl

theorem lookup_binding (x : String) (b : String × Object) (bs : List (String × Object)) :
    (b :: bs).lookup x = if x = b.1 then some b.2 else bs.lookup x := by
  rw [List.lookup_cons]
  by_cases h : x = b.1
  · simp [h]
  · have hb : (x == b.1) = false := by simpa using h
    simp [hb, h]

theorem lookup_place (name : String) (o : Object) (bs : List (String × Object)) (x : String) :
    (place name o bs).lookup x = if x = name then some o else bs.lookup x := by
  induction bs with
  | nil => simp [place, lookup_binding]
  | cons b bs ih =>
    simp only [place]
    split
    next => simp [lookup_binding]
    next hnlt =>
      split
      next hlt =>
        by_cases hx : x = b.1
        · have hne : ¬ x = name := by
            rintro rfl
            exact String.lt_irrefl _ (hx ▸ hlt)
          simp [lookup_binding, hx, hx ▸ hne]
        · simp [lookup_binding, hx, ih]
      next hngt =>
        have heq : name = b.1 := String.le_antisymm hngt hnlt
        subst heq
        by_cases hx : x = b.1 <;> simp [lookup_binding, hx]

@[simp] theorem get?_insert (σ : Substitution) (name : String) (o : Object) (x : String) :
    (σ.insert name o).get? x = if x = name then some o else σ.get? x :=
  lookup_place name o σ.bindings x

/-- A name that is below every bound name is not bound. -/
theorem lookup_eq_none_of_lt {name : String} {bs : List (String × Object)}
    (h : ∀ b ∈ bs, name < b.1) : bs.lookup name = none := by
  induction bs with
  | nil => rfl
  | cons b bs ih =>
    have hne : ¬ name = b.1 := fun he => String.lt_irrefl _ (he ▸ h b (by simp))
    rw [lookup_binding, if_neg hne, ih fun c hc => h c (by simp [hc])]

theorem eq_of_lookup_eq {bs cs : List (String × Object)}
    (hb : bs.Pairwise (fun b c => b.1 < c.1)) (hc : cs.Pairwise (fun b c => b.1 < c.1))
    (h : ∀ x, bs.lookup x = cs.lookup x) : bs = cs := by
  induction bs generalizing cs with
  | nil =>
    cases cs with
    | nil => rfl
    | cons c cs => simpa [lookup_binding] using h c.1
  | cons b bs ih =>
    cases cs with
    | nil => simpa [lookup_binding] using h b.1
    | cons c cs =>
      obtain ⟨hb₁, hb₂⟩ := List.pairwise_cons.1 hb
      obtain ⟨hc₁, hc₂⟩ := List.pairwise_cons.1 hc
      -- The least name of one side is the least name of the other.
      have hnlt : ¬ b.1 < c.1 := fun hlt => by
        have h₁ := h b.1
        have h₂ : (c :: cs).lookup b.1 = none := lookup_eq_none_of_lt fun d hd => by
          rcases List.mem_cons.1 hd with rfl | hd
          · exact hlt
          · exact String.lt_trans hlt (hc₁ d hd)
        rw [h₂] at h₁
        simp [lookup_binding] at h₁
      have hngt : ¬ c.1 < b.1 := fun hlt => by
        have h₁ := h c.1
        have h₂ : (b :: bs).lookup c.1 = none := lookup_eq_none_of_lt fun d hd => by
          rcases List.mem_cons.1 hd with rfl | hd
          · exact hlt
          · exact String.lt_trans hlt (hb₁ d hd)
        rw [h₂] at h₁
        simp [lookup_binding] at h₁
      have hname : b.1 = c.1 := String.le_antisymm hngt hnlt
      have hvalue : b.2 = c.2 := by
        have h₁ := h b.1
        simpa [lookup_binding, hname] using h₁
      have hrest : bs = cs := by
        refine ih hb₂ hc₂ fun x => ?_
        by_cases hx : x = b.1
        · rw [hx, lookup_eq_none_of_lt hb₁, hname, lookup_eq_none_of_lt hc₁]
        · have h₁ := h x
          have hx' : ¬ x = c.1 := hname ▸ hx
          simpa [lookup_binding, hx, hx'] using h₁
      rw [hrest, Prod.ext hname hvalue]

/-- Substitutions with the same bindings are equal. -/
theorem ext_get? {σ τ : Substitution} (h : ∀ name, σ.get? name = τ.get? name) : σ = τ := by
  obtain ⟨bs, hb⟩ := σ
  obtain ⟨cs, hc⟩ := τ
  simp only [Substitution.mk.injEq]
  exact eq_of_lookup_eq hb hc h

/-- The value that an effect's variable takes: a bound variable keeps its own, a free one
takes that of its name, which must have its type.  The fault names the action. -/
def applyVariable (σ : Substitution) (action : String) (v : Variable) : Except Fault Variable :=
  if v.isBound then .ok v
  else
    match σ.get? v.name with
    | none => .error (.unboundEffectVariable action v.name)
    | some o => v.bind o

/-- The literal with its variables replaced by their values. -/
def applyLiteral (σ : Substitution) (action : String) (l : Literal) : Except Fault Literal := do
  let arguments ← l.arguments.mapM (σ.applyVariable action)
  return { l with arguments }

end Substitution

end ClassicalPlanning
