/-
What literals look like.

A literal is written with brackets around it and blanks between its parts.  If its predicate and
the labels of its arguments are words, it can be told from the beginning of a text what they are,
and whether the literal is denied, whatever comes behind it (`readable_literal`).

The one thing to see to is a predicate that is called `not`: behind this word there is an opening
bracket if an atom is denied, and there is none if it is the predicate of an asserted literal.
-/
import ClassicalPlanning.Proofs.Text.Readable
import ClassicalPlanning.Text.Pddl

namespace ClassicalPlanning

/-- The labels of some arguments, up to the closing bracket. -/
def labelsText (vs : List Variable) : List Char :=
  [' '].intercalate (vs.map fun v => v.label.toList) ++ [')']

namespace Literal

/-- The predicate and the labels of the arguments are words. -/
def IsWorded (l : Literal) : Prop :=
  IsWord l.predicate ∧ ∀ v ∈ l.arguments, IsWord v.label

instance (l : Literal) : Decidable l.IsWorded :=
  inferInstanceAs (Decidable (IsWord l.predicate ∧ ∀ v ∈ l.arguments, IsWord v.label))

/-- The literal as it is written when it is asserted. -/
def atomText (l : Literal) : List Char :=
  '(' :: (l.predicate.toList ++ ' ' :: labelsText l.arguments)

variable {l : Literal}

lemma toList_pddl_of_positive (h : l.polarity = .positive) : l.pddl.toList = l.atomText := by
  simp [pddl, h, atomText, labelsText, String.toList_intercalate, Function.comp_def]

lemma toList_pddl_of_negative (h : l.polarity = .negative) :
    l.pddl.toList = "(not ".toList ++ (l.atomText ++ [')']) := by
  simp [pddl, h, atomText, labelsText, String.toList_intercalate, Function.comp_def]

end Literal

section Literals

variable {l : Literal}

lemma stops_blank (s : List Char) : Stops isWordChar (' ' :: s) :=
  stops_cons (by decide) s

lemma stops_close (s : List Char) : Stops isWordChar (')' :: s) :=
  stops_cons (by decide) s

lemma readable_labels :
    Readable (fun vs => ∀ v ∈ vs, IsWord v.label) (fun _ => True) labelsText
      (List.Forall₂ fun v w => v.label = w.label) := by
  have hlabel : Readable (fun v : Variable => IsWord v.label) (Stops isWordChar)
      (fun v => v.label.toList) (fun v w => v.label = w.label) :=
    fun v w hv hw => readable_word v.label w.label hv hw
  exact hlabel.separated stops_blank stops_close (fun s => by simp) fun v hv s t =>
    hv.append_ne_cons (by decide) s t

lemma readable_atom :
    Readable Literal.IsWorded (fun _ => True) Literal.atomText
      (fun l m => l.predicate = m.predicate ∧
        List.Forall₂ (fun v w => v.label = w.label) l.arguments m.arguments) := by
  intro l m hl hm s t _ _ heq
  simp only [Literal.atomText, List.cons_append, List.append_assoc, List.cons.injEq, true_and]
    at heq
  obtain ⟨hpredicate, hrest⟩ :=
    readable_word _ _ hl.1 hm.1 _ _ (stops_blank _) (stops_blank _) heq
  rw [List.cons.injEq] at hrest
  obtain ⟨hlabels, rfl⟩ := readable_labels _ _ hl.2 hm.2 s t trivial trivial hrest.2
  exact ⟨⟨hpredicate, hlabels⟩, rfl⟩

/-- An asserted literal is not written like a denied one, even if its predicate is `not`. -/
lemma atomText_append_ne (hl : l.IsWorded) (s t : List Char) :
    l.atomText ++ s ≠ "(not ".toList ++ '(' :: t := by
  intro heq
  have hnot : "(not ".toList ++ '(' :: t = '(' :: ("not".toList ++ ' ' :: '(' :: t) := by simp
  rw [hnot] at heq
  simp only [Literal.atomText, List.cons_append, List.append_assoc, List.cons.injEq, true_and]
    at heq
  obtain ⟨-, hrest⟩ :=
    readable_word _ _ hl.1 (by decide) _ _ (stops_blank _) (stops_blank _) heq
  rw [List.cons.injEq] at hrest
  -- Behind the word there is a closing bracket or a label, and no opening bracket.
  cases hvs : l.arguments with
  | nil => simp [hvs, labelsText] at hrest
  | cons v vs =>
    have hv : IsWord v.label := hl.2 v (hvs ▸ List.mem_cons_self)
    rw [hvs, labelsText, Readable.intercalate_map_cons, List.append_assoc, List.append_assoc]
      at hrest
    exact hv.append_ne_cons (by decide) _ _ hrest.2

/-- What is written of a literal can be told from the beginning of a text. -/
lemma readable_literal :
    Readable Literal.IsWorded (fun _ => True) (fun l => l.pddl.toList)
      (fun l m => l.head = m.head ∧
        List.Forall₂ (fun v w => v.label = w.label) l.arguments m.arguments) := by
  intro l m hl hm s t _ _ heq
  simp only at heq
  cases hp : l.polarity with
  | positive =>
    rw [Literal.toList_pddl_of_positive hp] at heq
    cases hp' : m.polarity with
    | positive =>
      rw [Literal.toList_pddl_of_positive hp'] at heq
      obtain ⟨⟨hpredicate, hlabels⟩, rfl⟩ := readable_atom l m hl hm s t trivial trivial heq
      exact ⟨⟨by rw [Literal.head, Literal.head, hp, hp', hpredicate], hlabels⟩, rfl⟩
    | negative =>
      rw [Literal.toList_pddl_of_negative hp', List.append_assoc] at heq
      exact absurd heq (atomText_append_ne hl _ _)
  | negative =>
    rw [Literal.toList_pddl_of_negative hp, List.append_assoc] at heq
    cases hp' : m.polarity with
    | positive =>
      rw [Literal.toList_pddl_of_positive hp'] at heq
      exact absurd heq.symm (atomText_append_ne hm _ _)
    | negative =>
      rw [Literal.toList_pddl_of_negative hp'] at heq
      simp only [List.append_assoc, List.append_cancel_left_eq] at heq
      obtain ⟨⟨hpredicate, hlabels⟩, hrest⟩ := readable_atom l m hl hm _ _ trivial trivial heq
      exact ⟨⟨by rw [Literal.head, Literal.head, hp, hp', hpredicate], hlabels⟩,
        List.append_cancel_left hrest⟩

end Literals

end ClassicalPlanning
