/-
Texts that can be taken apart.

A way to write things is readable if what is written can be told from the beginning of a text,
whatever comes behind it: when two things are written and continued to the same text, the things
are the same, and so are the continuations (`Readable`).  The continuations may be subject to a
condition, since a word goes on until something comes that cannot be part of it.

Readable texts can be put together.  The main results are

* `readable_word`: words are readable where they stop;
* `Readable.led`: so are lists, if there is a lead before each item;
* `Readable.separated`: and lists with separators between the items, up to a closing text.
-/
import ClassicalPlanning.Text.Blank
import Mathlib.Data.List.Forall2

namespace ClassicalPlanning

/-- The things that meet `A`, written by `f`, can be told up to `r` from the beginning of a text, as
long as what comes behind them meets `F`. -/
def Readable {α : Type} (A : α → Prop) (F : List Char → Prop) (f : α → List Char)
    (r : α → α → Prop) : Prop :=
  ∀ a b, A a → A b → ∀ s t, F s → F t → f a ++ s = f b ++ t → r a b ∧ s = t

/-! ## Words -/

/-- The text does not go on with a character of the given kind. -/
def Stops (p : Char → Bool) (s : List Char) : Prop :=
  ∀ c ∈ s.head?, p c = false

/-- Whether the character can be part of a word: it is neither white space nor a bracket. -/
def isWordChar (c : Char) : Bool :=
  !isBlank c && c ≠ '(' && c ≠ ')'

/-- The text is a word: it is not empty, and all of it can be part of a word. -/
def IsWord (w : String) : Prop :=
  w.toList ≠ [] ∧ ∀ c ∈ w.toList, isWordChar c = true

instance (w : String) : Decidable (IsWord w) :=
  decidable_of_iff (w.toList ≠ [] ∧ w.toList.all isWordChar = true) (by simp [IsWord])

section Words

variable {p : Char → Bool} {u v s t : List Char}

lemma stops_cons {c : Char} (hc : p c = false) (s : List Char) : Stops p (c :: s) := by
  intro d hd
  obtain rfl : c = d := by simpa using hd
  exact hc

lemma Stops.takeWhile_eq_nil (h : Stops p s) : s.takeWhile p = [] := by
  cases s with
  | nil => rfl
  | cons c s => rw [List.takeWhile_cons_of_neg (by simp [h c rfl])]

/-- Texts of characters of one kind end where a text goes on with something else. -/
lemma eq_of_append_eq_of_stops (hu : ∀ c ∈ u, p c = true) (hv : ∀ c ∈ v, p c = true)
    (hs : Stops p s) (ht : Stops p t) (h : u ++ s = v ++ t) : u = v ∧ s = t := by
  have huv := congrArg (List.takeWhile p) h
  rw [List.takeWhile_append_of_pos hu, List.takeWhile_append_of_pos hv, hs.takeWhile_eq_nil,
    ht.takeWhile_eq_nil, List.append_nil, List.append_nil] at huv
  subst huv
  exact ⟨rfl, List.append_cancel_left h⟩

lemma readable_word : Readable IsWord (Stops isWordChar) String.toList Eq := by
  intro w w' hw hw' s t hs ht h
  obtain ⟨hchars, rfl⟩ := eq_of_append_eq_of_stops hw.2 hw'.2 hs ht h
  exact ⟨String.toList_inj.mp hchars, rfl⟩

lemma IsWord.exists_cons {w : String} (h : IsWord w) :
    ∃ c cs, w.toList = c :: cs ∧ isWordChar c = true := by
  obtain ⟨c, cs, hw⟩ := List.exists_cons_of_ne_nil h.1
  exact ⟨c, cs, hw, h.2 c (hw ▸ List.mem_cons_self)⟩

/-- A word does not begin with a character that cannot be part of it. -/
lemma IsWord.append_ne_cons {w : String} (h : IsWord w) {c : Char} (hc : isWordChar c = false)
    (s t : List Char) : w.toList ++ s ≠ c :: t := by
  obtain ⟨d, ds, hw, hd⟩ := h.exists_cons
  intro heq
  rw [hw, List.cons_append, List.cons.injEq] at heq
  rw [heq.1, hc] at hd
  exact Bool.false_ne_true hd

end Words

/-! ## Lists -/

namespace Readable

variable {α : Type} {A : α → Prop} {F : List Char → Prop} {f : α → List Char} {r : α → α → Prop}
  {lead sep close : List Char}

/-- What comes behind an item is another lead, or else what comes behind the list. -/
lemma follows_flatMap (hlead : ∀ s, F (lead ++ s)) (l : List α) {s : List Char} (hs : F s) :
    F (l.flatMap (fun a => lead ++ f a) ++ s) := by
  cases l with
  | nil => exact hs
  | cons a l =>
    rw [List.flatMap_cons, List.append_assoc, List.append_assoc]
    exact hlead _

/-- Readable things, each with a lead before it, up to where no further lead comes. -/
lemma led (h : Readable A F f r) (hlead : ∀ s, F (lead ++ s)) :
    Readable (fun l => ∀ a ∈ l, A a) (fun s => F s ∧ ¬ lead <+: s)
      (fun l => l.flatMap fun a => lead ++ f a) (List.Forall₂ r) := by
  intro l m hl hm s t ⟨hs, hs'⟩ ⟨ht, ht'⟩ heq
  induction l generalizing m with
  | nil =>
    cases m with
    | nil => exact ⟨.nil, heq⟩
    | cons b m =>
      simp only [List.flatMap_nil, List.nil_append, List.flatMap_cons, List.append_assoc] at heq
      exact absurd ⟨_, heq.symm⟩ hs'
  | cons a l ih =>
    cases m with
    | nil =>
      simp only [List.flatMap_nil, List.nil_append, List.flatMap_cons, List.append_assoc] at heq
      exact absurd ⟨_, heq⟩ ht'
    | cons b m =>
      obtain ⟨ha, hl⟩ := List.forall_mem_cons.mp hl
      obtain ⟨hb, hm⟩ := List.forall_mem_cons.mp hm
      simp only [List.flatMap_cons, List.append_assoc, List.append_cancel_left_eq] at heq
      obtain ⟨hab, hrest⟩ := h a b ha hb _ _ (follows_flatMap hlead l hs)
        (follows_flatMap hlead m ht) heq
      obtain ⟨hlm, rfl⟩ := ih m hl hm hrest
      exact ⟨.cons hab hlm, rfl⟩

/-- What a list is written as is its first item and, each behind a separator, the others. -/
lemma intercalate_map_cons (sep : List Char) (f : α → List Char) (a : α) (l : List α) :
    sep.intercalate ((a :: l).map f) = f a ++ l.flatMap fun b => sep ++ f b := by
  induction l generalizing a with
  | nil => simp
  | cons b l ih =>
    rw [List.map_cons, List.map_cons, List.intercalate_cons_cons, ← List.map_cons, ih b,
      List.flatMap_cons, List.append_assoc, List.append_assoc]

/-- Readable things with separators between them, up to a closing text that cannot be taken for a
separator or the beginning of an item. -/
lemma separated (h : Readable A F f r) (hsep : ∀ s, F (sep ++ s)) (hclose : ∀ s, F (close ++ s))
    (hapart : ∀ s, ¬ sep <+: close ++ s) (hitem : ∀ a, A a → ∀ s t, f a ++ s ≠ close ++ t) :
    Readable (fun l => ∀ a ∈ l, A a) (fun _ => True)
      (fun l => sep.intercalate (l.map f) ++ close) (List.Forall₂ r) := by
  intro l m hl hm s t _ _ heq
  cases l with
  | nil =>
    cases m with
    | nil => exact ⟨.nil, List.append_cancel_left heq⟩
    | cons b m =>
      simp only [intercalate_map_cons, List.map_nil, List.intercalate_nil, List.nil_append,
        List.append_assoc] at heq
      exact absurd heq.symm (hitem b (hm b List.mem_cons_self) _ _)
  | cons a l =>
    cases m with
    | nil =>
      simp only [intercalate_map_cons, List.map_nil, List.intercalate_nil, List.nil_append,
        List.append_assoc] at heq
      exact absurd heq (hitem a (hl a List.mem_cons_self) _ _)
    | cons b m =>
      obtain ⟨ha, hl⟩ := List.forall_mem_cons.mp hl
      obtain ⟨hb, hm⟩ := List.forall_mem_cons.mp hm
      simp only [intercalate_map_cons, List.append_assoc] at heq
      obtain ⟨hab, hrest⟩ := h a b ha hb _ _ (follows_flatMap hsep l (hclose s))
        (follows_flatMap hsep m (hclose t)) heq
      -- Behind the first items the separators are leads.
      obtain ⟨hlm, hend⟩ := h.led hsep l m hl hm _ _ ⟨hclose s, hapart s⟩ ⟨hclose t, hapart t⟩ hrest
      exact ⟨.cons hab hlm, List.append_cancel_left hend⟩

end Readable

end ClassicalPlanning
