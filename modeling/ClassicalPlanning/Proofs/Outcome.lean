/-
Computations that may be at fault.

What it takes for a computation made of several steps to end well: each of the steps does.
Its fault, if it has one, is the fault of one of the steps, and on a list it is the fault of the
first element that has one (`mapM_eq_error_iff`).

`EndAlike` compares two computations: step by step, they end alike if each of the steps does.
-/
import Mathlib.Data.List.Forall2

namespace ClassicalPlanning

variable {ε α β : Type}

lemma bind_eq_ok_iff {x : Except ε α} {f : α → Except ε β} {b : β} :
    x >>= f = .ok b ↔ ∃ a, x = .ok a ∧ f a = .ok b := by
  cases x with
  | error fault => simp [bind, Except.bind]
  | ok a => simp [bind, Except.bind]

lemma bind_eq_error_iff {x : Except ε α} {f : α → Except ε β} {fault : ε} :
    x >>= f = .error fault ↔ x = .error fault ∨ ∃ a, x = .ok a ∧ f a = .error fault := by
  cases x with
  | error fault' => simp [bind, Except.bind]
  | ok a => simp [bind, Except.bind]

lemma map_eq_ok_iff {f : α → β} {x : Except ε α} {b : β} :
    x.map f = .ok b ↔ ∃ a, x = .ok a ∧ f a = b := by
  cases x <;> simp [Except.map]

lemma map_eq_error_iff {f : α → β} {x : Except ε α} {fault : ε} :
    x.map f = .error fault ↔ x = .error fault := by
  cases x <;> simp [Except.map]

/-- A test of the result tells that there is one. -/
lemma exists_of_any_toOption {x : Except ε α} {q : α → Bool} (h : x.toOption.any q = true) :
    ∃ a, x = .ok a ∧ q a = true := by
  cases x with
  | error fault => simp [Except.toOption] at h
  | ok a => exact ⟨a, rfl, h⟩

lemma mapM_eq_ok_iff {f : α → Except ε β} {l : List α} {r : List β} :
    l.mapM f = .ok r ↔ List.Forall₂ (fun a b => f a = .ok b) l r := by
  induction l generalizing r with
  | nil => simp [List.mapM_nil, pure, Except.pure, eq_comm]
  | cons a l ih =>
    simp only [List.mapM_cons, bind_eq_ok_iff, ih, pure, Except.pure, Except.ok.injEq]
    constructor
    · rintro ⟨b, hb, bs, hbs, rfl⟩
      exact .cons hb hbs
    · rintro (_ | ⟨hb, hbs⟩)
      exact ⟨_, hb, _, hbs, rfl⟩

/-- A computation on a list succeeds if it does so at each element. -/
lemma exists_mapM_eq_ok_iff {f : α → Except ε β} {l : List α} :
    (∃ r, l.mapM f = .ok r) ↔ ∀ a ∈ l, ∃ b, f a = .ok b := by
  induction l with
  | nil => simp [List.mapM_nil, pure, Except.pure]
  | cons a l ih =>
    rw [List.forall_mem_cons, ← ih]
    simp only [List.mapM_cons, bind_eq_ok_iff, pure, Except.pure, Except.ok.injEq]
    constructor
    · rintro ⟨-, b, hb, bs, hbs, -⟩
      exact ⟨⟨b, hb⟩, bs, hbs⟩
    · rintro ⟨⟨b, hb⟩, bs, hbs⟩
      exact ⟨b :: bs, b, hb, bs, hbs, rfl⟩

lemma exists_of_mem_of_mapM_eq_ok {f : α → Except ε β} {l : List α} {r : List β}
    (h : l.mapM f = .ok r) {b : β} (hb : b ∈ r) : ∃ a ∈ l, f a = .ok b := by
  rw [mapM_eq_ok_iff] at h
  induction h with
  | nil => simp at hb
  | cons ha _ ih =>
    rcases List.mem_cons.mp hb with rfl | hb
    · exact ⟨_, List.mem_cons_self, ha⟩
    · obtain ⟨a, hmem, happly⟩ := ih hb
      exact ⟨a, List.mem_cons_of_mem _ hmem, happly⟩

lemma exists_of_mapM_eq_error {f : α → Except ε β} {l : List α} {fault : ε}
    (h : l.mapM f = .error fault) : ∃ a ∈ l, f a = .error fault := by
  induction l with
  | nil => simp [List.mapM_nil, pure, Except.pure] at h
  | cons a l ih =>
    simp only [List.mapM_cons, bind_eq_error_iff] at h
    rcases h with ha | ⟨b, -, hl | ⟨bs, -, hbs⟩⟩
    · exact ⟨a, List.mem_cons_self, ha⟩
    · obtain ⟨a', ha', hfault⟩ := ih hl
      exact ⟨a', List.mem_cons_of_mem _ ha', hfault⟩
    · simp [pure, Except.pure] at hbs

/-- What can be seen of the results of a computation can be told beforehand, if this is so at
each element. -/
lemma map_eq_map_of_mapM_eq_ok {γ : Type} {f : α → Except ε β} {g : β → γ} {g' : α → γ}
    {l : List α} {r : List β} (h : ∀ a b, f a = .ok b → g b = g' a) (hr : l.mapM f = .ok r) :
    r.map g = l.map g' := by
  rw [mapM_eq_ok_iff] at hr
  induction hr with
  | nil => rfl
  | cons hb _ ih => rw [List.map_cons, List.map_cons, h _ _ hb, ih]

/-- Two computations that agree at each element in what can be seen of the results agree on
a whole list. -/
lemma map_eq_of_mapM_eq_ok {γ : Type} {f f' : α → Except ε β} {g : β → γ} {l : List α}
    {r r' : List β} (h : ∀ a b b', f a = .ok b → f' a = .ok b' → g b = g b')
    (hr : l.mapM f = .ok r) (hr' : l.mapM f' = .ok r') : r.map g = r'.map g := by
  rw [mapM_eq_ok_iff] at hr hr'
  induction hr generalizing r' with
  | nil =>
    cases hr'
    rfl
  | cons hb _ ih =>
    obtain _ | ⟨hb', hbs'⟩ := hr'
    rw [List.map_cons, List.map_cons, h _ _ _ hb hb', ih hbs']

/-- What is written for each element of a list is read back from all of it, if it is read back
element by element. -/
lemma mapM_map_eq_some {γ : Type} {f : α → β} {g : β → Option γ} {h : α → γ} {l : List α}
    (hl : ∀ a ∈ l, g (f a) = some (h a)) : (l.map f).mapM g = some (l.map h) := by
  induction l with
  | nil => rfl
  | cons a l ih =>
    have htail := ih fun b hb => hl b (List.mem_cons_of_mem a hb)
    simp [hl a List.mem_cons_self, htail]

/-! ## The first fault -/

section First

variable {P : α → Prop} {l : List α} {a b : α}

/-- The member `a` is the first of the list that has the property. -/
def IsFirst (P : α → Prop) (l : List α) (a : α) : Prop :=
  ∃ before after, l = before ++ a :: after ∧ (∀ b ∈ before, ¬ P b) ∧ P a

lemma IsFirst.holds (h : IsFirst P l a) : P a := by
  obtain ⟨before, after, -, -, ha⟩ := h
  exact ha

lemma not_isFirst_nil : ¬ IsFirst P [] a := by
  rintro ⟨before, after, hnil, -⟩
  simp at hnil

lemma isFirst_iff_find? [DecidablePred P] : IsFirst P l a ↔ l.find? (fun b => P b) = some a := by
  simp only [IsFirst, List.find?_eq_some_iff_append, decide_eq_true_eq, Bool.not_eq_true',
    decide_eq_false_iff_not]
  exact ⟨fun ⟨before, after, hl, hbefore, ha⟩ => ⟨ha, before, after, hl, hbefore⟩,
    fun ⟨ha, before, after, hl, hbefore⟩ => ⟨before, after, hl, hbefore, ha⟩⟩

/-- Some member has the property just if one of them is the first. -/
lemma exists_isFirst_iff : (∃ a, IsFirst P l a) ↔ ∃ a ∈ l, P a := by
  classical
  simp only [isFirst_iff_find?, ← Option.isSome_iff_exists, List.find?_isSome, decide_eq_true_eq]

lemma isFirst_cons_iff : IsFirst P (b :: l) a ↔ (P b ∧ a = b) ∨ (¬ P b ∧ IsFirst P l a) := by
  classical
  rw [isFirst_iff_find?, isFirst_iff_find?, List.find?_cons]
  by_cases hb : P b <;> simp [hb, eq_comm]

lemma exists_isFirst_cons_and_iff {Q : α → Prop} : (∃ a, IsFirst P (b :: l) a ∧ Q a) ↔
    (P b ∧ Q b) ∨ (¬ P b ∧ ∃ a, IsFirst P l a ∧ Q a) := by
  simp only [isFirst_cons_iff]
  constructor
  · rintro ⟨a, ⟨hb, rfl⟩ | ⟨hb, ha⟩, hQ⟩
    · exact .inl ⟨hb, hQ⟩
    · exact .inr ⟨hb, a, ha, hQ⟩
  · rintro (⟨hb, hQ⟩ | ⟨hb, a, ha, hQ⟩)
    · exact ⟨b, .inl ⟨hb, rfl⟩, hQ⟩
    · exact ⟨a, .inr ⟨hb, ha⟩, hQ⟩

/-- A computation on a list has the fault of the first element that is at fault. -/
lemma mapM_eq_error_iff {f : α → Except ε β} {fault : ε} : l.mapM f = .error fault ↔
    ∃ a, IsFirst (fun a => ∃ fault, f a = .error fault) l a ∧ f a = .error fault := by
  induction l with
  | nil => simp [not_isFirst_nil, List.mapM_nil, pure, Except.pure]
  | cons b l ih =>
    have hpure : ∀ (c : β) (cs : List β), (pure (c :: cs) : Except ε (List β)) ≠ .error fault :=
      fun c cs h => nomatch h
    simp only [List.mapM_cons, bind_eq_error_iff, ih, isFirst_cons_iff, hpure]
    cases hb : f b with
    | error fault' => simp [hb]
    | ok c => simp

end First

/-! ## Two computations -/

/-- Two computations end alike: both end well, with results that the one relation joins, or both
are at fault, with faults that the other relation joins. -/
inductive EndAlike {ε' : Type} (φ : ε → ε' → Prop) (r : α → β → Prop) :
    Except ε α → Except ε' β → Prop
  /-- Both end well. -/
  | ok {a : α} {b : β} (h : r a b) : EndAlike φ r (.ok a) (.ok b)
  /-- Both are at fault. -/
  | error {fault : ε} {fault' : ε'} (h : φ fault fault') :
      EndAlike φ r (.error fault) (.error fault')

namespace EndAlike

variable {ε' γ δ : Type} {φ : ε → ε' → Prop} {r : α → β → Prop} {r' : γ → δ → Prop}
  {x : Except ε α} {y : Except ε' β}

lemma refl {φ : ε → ε → Prop} {r : α → α → Prop} (hφ : ∀ fault, φ fault fault) (hr : ∀ a, r a a)
    (x : Except ε α) : EndAlike φ r x x := by
  cases x with
  | error fault => exact .error (hφ fault)
  | ok a => exact .ok (hr a)

lemma imp {φ' : ε → ε' → Prop} {s : α → β → Prop} (hφ : ∀ e e', φ e e' → φ' e e')
    (hr : ∀ a b, r a b → s a b) (h : EndAlike φ r x y) : EndAlike φ' s x y := by
  cases h with
  | ok h => exact .ok (hr _ _ h)
  | error h => exact .error (hφ _ _ h)

lemma bind {f : α → Except ε γ} {g : β → Except ε' δ} (h : EndAlike φ r x y)
    (hfg : ∀ a b, r a b → EndAlike φ r' (f a) (g b)) : EndAlike φ r' (x >>= f) (y >>= g) := by
  cases h with
  | ok h => exact hfg _ _ h
  | error h => exact .error h

/-- Computations on the elements of two lists that end alike at each element end alike on the
lists. -/
lemma mapM {f : α → Except ε γ} {g : β → Except ε' δ} {l : List α} {m : List β}
    (h : List.Forall₂ (fun a b => EndAlike φ r' (f a) (g b)) l m) :
    EndAlike φ (List.Forall₂ r') (l.mapM f) (m.mapM g) := by
  induction h with
  | nil => exact .ok .nil
  | cons hhead _ ih =>
    rw [List.mapM_cons, List.mapM_cons]
    exact hhead.bind fun c d hcd => ih.bind fun cs ds hcds => .ok (.cons hcd hcds)

end EndAlike

end ClassicalPlanning
