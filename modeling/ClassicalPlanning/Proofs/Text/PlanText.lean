/-
What plans look like.

The literals of a domain come from its declared predicates, applied to objects.  The types of the
arguments are not written, but the name of the predicate tells its declaration, and this tells the
types; so such literals say the same if they have the same words (`Domain.Speaks.equiv`), and a
reader can tell what they say (`readable_spoken`).

A step of a plan is the name of an action, which ends with the first blank behind it, and a list of
quoted literals, which ends with the first bracket that stands where a quotation mark or a comma
could.  The steps come one after the other, with an empty line before each.

The main result is `text_eq_iff`: literals of one domain say the same if and only if they are
written alike, and the same is true of plans that consist of such literals.
-/
import ClassicalPlanning.Language.Domain
import ClassicalPlanning.Proofs.Language.Predicate
import ClassicalPlanning.Proofs.Matching.Anonymity
import ClassicalPlanning.Proofs.Outcome
import ClassicalPlanning.Proofs.Text.LiteralText
import ClassicalPlanning.Proofs.Walk
import ClassicalPlanning.Text.PlanText

namespace ClassicalPlanning

/-- The literals of a domain: the predicate of some name is applied to objects, where all names are
words, and denied any number of times. -/
inductive Domain.Speaks (d : Domain) : Literal → Prop
  /-- The predicate is applied. -/
  | apply {name : String} {p : Predicate} {objects : List Object} {l : Literal}
      (hp : d.predicate name = .ok p) (hl : p.apply (objects.map .object) = .ok l)
      (hname : IsWord name) (hobjects : ∀ o ∈ objects, IsWord o.name) : d.Speaks l
  /-- The literal is denied. -/
  | negate {l : Literal} (h : d.Speaks l) : d.Speaks l.negate

/-- The step is one over the domain: the name of its action has no blanks. -/
structure Plan.Step.IsOver (d : Domain) (s : Plan.Step) : Prop where
  action : ∀ c ∈ s.action.toList, isBlank c = false
  matched : ∀ l ∈ s.matched, d.Speaks l

/-! ## Literals of a domain -/

section Literals

variable {d : Domain} {l m : Literal} {slots vs ws : List Variable}

lemma Domain.name_of_predicate {name : String} {p : Predicate} (h : d.predicate name = .ok p) :
    p.name = name := by
  unfold predicate at h
  split at h
  next p' hp' =>
    obtain rfl : p' = p := by simpa using h
    simpa using List.find?_some hp'
  next => simp at h

/-- Objects fill the slots that they stand against. -/
lemma forall₂_filled {objects : List Object} (hlength : objects.length = slots.length)
    (h : (slots.zip (objects.map Argument.object)).mapM
      (fun (slot, argument) => argument.fillSlot slot) = .ok vs) :
    List.Forall₂ (fun v slot => ∃ o ∈ objects, v = slot.fill o) vs slots := by
  rw [mapM_eq_ok_iff] at h
  induction slots generalizing objects vs with
  | nil =>
    obtain rfl : vs = [] := by simpa using h
    exact .nil
  | cons slot slots ih =>
    cases objects with
    | nil => simp at hlength
    | cons o objects =>
      rw [List.map_cons, List.zip_cons_cons, List.forall₂_cons_left_iff] at h
      obtain ⟨v, vs, hv, hvs, rfl⟩ := h
      obtain ⟨-, hfill⟩ := Variable.bind_eq_ok_iff.mp hv
      refine .cons ⟨o, List.mem_cons_self, hfill.symm⟩ ?_
      refine (ih (by simpa using hlength) hvs).imp ?_
      rintro w slot' ⟨o', ho', rfl⟩
      exact ⟨o', List.mem_cons_of_mem _ ho', rfl⟩

/-- What is known of the literals of a domain. -/
lemma Domain.Speaks.exists_predicate (h : d.Speaks l) :
    l.IsWorded ∧ ∃ p, d.predicate l.predicate = .ok p ∧
      List.Forall₂ (fun v slot => ∃ o, v = slot.fill o) l.arguments p.slots := by
  induction h with
  | negate _ ih => exact ih
  | @apply name p objects l hp hl hname hobjects =>
    obtain ⟨hlength, vs, hvs, rfl⟩ := Predicate.apply_eq_ok_iff.mp hl
    have hfilled : List.Forall₂ (fun v slot => IsWord v.label ∧ ∃ o, v = slot.fill o)
        vs p.slots := by
      refine (forall₂_filled (by simpa [Predicate.arity] using hlength) hvs).imp ?_
      rintro v slot ⟨o, ho, rfl⟩
      exact ⟨hobjects o ho, o, rfl⟩
    obtain ⟨hwords, hslots⟩ := (List.forall₂_and_left vs p.slots).mp hfilled
    have hpname := name_of_predicate hp
    exact ⟨⟨hpname ▸ hname, hwords⟩, p, hpname ▸ hp, hslots⟩

/-- Arguments that fill the same slots and have the same labels stand for the same objects. -/
lemma forall₂_equiv_of_labels (hvs : List.Forall₂ (fun v slot => ∃ o, v = slot.fill o) vs slots)
    (hws : List.Forall₂ (fun v slot => ∃ o, v = slot.fill o) ws slots)
    (hlabels : List.Forall₂ (fun v w => v.label = w.label) vs ws) :
    List.Forall₂ (· ≈ ·) vs ws := by
  induction hvs generalizing ws with
  | nil =>
    cases hlabels
    exact .nil
  | cons hv _ ih =>
    obtain _ | ⟨hw, hws⟩ := hws
    obtain _ | ⟨hlabel, hlabels⟩ := hlabels
    obtain ⟨o, rfl⟩ := hv
    obtain ⟨o', rfl⟩ := hw
    refine .cons ?_ (ih hws hlabels)
    exact congrArg (fun name => Referent.constant name _) hlabel

/-- Literals of a domain say the same if they have the same words. -/
lemma Domain.Speaks.equiv (hl : d.Speaks l) (hm : d.Speaks m) (hhead : l.head = m.head)
    (hlabels : List.Forall₂ (fun v w => v.label = w.label) l.arguments m.arguments) : l ≈ m := by
  obtain ⟨-, p, hp, hvs⟩ := hl.exists_predicate
  obtain ⟨-, p', hp', hws⟩ := hm.exists_predicate
  have hname : l.predicate = m.predicate := congrArg Head.predicate hhead
  rw [hname, hp', Except.ok.injEq] at hp
  subst hp
  exact Literal.equiv_iff_forall₂.mpr ⟨hhead, forall₂_equiv_of_labels hvs hws hlabels⟩

lemma readable_spoken (d : Domain) :
    Readable d.Speaks (fun _ => True) (fun l => l.pddl.toList) (· ≈ ·) := by
  intro l m hl hm s t hs ht heq
  obtain ⟨⟨hhead, hlabels⟩, hrest⟩ :=
    readable_literal l m hl.exists_predicate.1 hm.exists_predicate.1 s t hs ht heq
  exact ⟨hl.equiv hm hhead hlabels, hrest⟩

end Literals

/-! ## Plans over a domain -/

section Plans

variable {d : Domain}

/-- The facts of a step, up to the closing bracket. -/
def factsText (ls : List Literal) : List Char :=
  ", ".toList.intercalate (ls.map fun l => "'".toList ++ (l.pddl.toList ++ "'".toList)) ++
    "]".toList

lemma toList_text_step (s : Plan.Step) :
    s.text.toList = (s.action.toList ++ ":".toList) ++ (" [".toList ++ factsText s.matched) := by
  simp [Plan.Step.text, factsText, String.toList_intercalate, Function.comp_def]

lemma toList_text (p : Plan) :
    p.text.toList = "Actions to take, starting from the top:".toList ++
      p.steps.flatMap fun s => "\n\n".toList ++ s.text.toList := by
  unfold Plan.text
  rw [String.toList_append]
  congr 1
  rw [String.toList_join, List.flatMap_map]
  simp only [String.toList_append]

lemma readable_quoted (d : Domain) :
    Readable d.Speaks (fun _ => True) (fun l => "'".toList ++ (l.pddl.toList ++ "'".toList))
      (· ≈ ·) := by
  intro l m hl hm s t _ _ heq
  simp only [List.append_assoc, List.append_cancel_left_eq] at heq
  obtain ⟨hlm, hrest⟩ := readable_spoken d l m hl hm _ _ trivial trivial heq
  exact ⟨hlm, List.append_cancel_left hrest⟩

lemma readable_facts (d : Domain) :
    Readable (fun ls => ∀ l ∈ ls, d.Speaks l) (fun _ => True) factsText (List.Forall₂ (· ≈ ·)) :=
  (readable_quoted d).separated (fun _ => trivial) (fun _ => trivial) (fun s => by simp)
    fun l _ s t => by simp

lemma readable_step (d : Domain) :
    Readable (Plan.Step.IsOver d) (fun _ => True) (fun s => s.text.toList)
      (fun s s' => s.action = s'.action ∧ List.Forall₂ (· ≈ ·) s.matched s'.matched) := by
  -- The name of an action has no blanks, and neither has the colon behind it.
  have hname : ∀ s : Plan.Step, s.IsOver d →
      ∀ c ∈ s.action.toList ++ ":".toList, (!isBlank c) = true := by
    intro s hs c hc
    rcases List.mem_append.mp hc with hc | hc
    · rw [hs.action c hc, Bool.not_false]
    · obtain rfl : c = ':' := by simpa using hc
      decide
  have hblank : ∀ x : List Char, Stops (fun c => !isBlank c) (" [".toList ++ x) :=
    fun x => stops_cons (by decide) ('[' :: x)
  intro s s' hs hs' x y _ _ heq
  simp only [toList_text_step] at heq
  rw [List.append_assoc, List.append_assoc (s'.action.toList ++ _), List.append_assoc (" [".toList),
    List.append_assoc (" [".toList)] at heq
  obtain ⟨haction, hrest⟩ := eq_of_append_eq_of_stops (p := fun c => !isBlank c) (hname s hs)
    (hname s' hs') (hblank _) (hblank _) heq
  obtain ⟨hfacts, hend⟩ := readable_facts d _ _ hs.matched hs'.matched x y trivial trivial
    (List.append_cancel_left hrest)
  exact ⟨⟨String.toList_inj.mp (List.append_cancel_right haction), hfacts⟩, hend⟩

/-- Plans over a domain that are written alike say the same. -/
lemma Plan.equiv_of_text_eq {p q : Plan} (hp : ∀ s ∈ p.steps, s.IsOver d)
    (hq : ∀ s ∈ q.steps, s.IsOver d) (h : p.text = q.text) : p ≈ q := by
  have heq := congrArg String.toList h
  rw [toList_text, toList_text, List.append_cancel_left_eq] at heq
  have hend : True ∧ ¬ "\n\n".toList <+: [] := ⟨trivial, by simp⟩
  obtain ⟨hsteps, -⟩ := (readable_step d).led (fun _ => trivial) p.steps q.steps hp hq [] [] hend
    hend (by simpa using heq)
  exact Plan.equiv_iff_forall₂.mpr hsteps

end Plans

/-- Literals that come from the predicates of one domain, applied to objects and denied any number
of times, say the same if and only if they are written alike, provided that the names are words.
Plans whose steps consist of such literals, and of actions without blanks in their names, say the
same if and only if they are written alike. -/
theorem text_eq_iff (d : Domain) :
    (∀ l m : Literal, d.Speaks l → d.Speaks m → (l ≈ m ↔ l.pddl = m.pddl)) ∧
    ∀ p q : Plan, (∀ s ∈ p.steps, s.IsOver d) → (∀ s ∈ q.steps, s.IsOver d) →
      (p ≈ q ↔ p.text = q.text) := by
  refine ⟨fun l m hl hm => ⟨Literal.pddl_eq_of_equiv, fun h => ?_⟩,
    fun p q hp hq => ⟨Plan.text_eq_of_equiv, Plan.equiv_of_text_eq hp hq⟩⟩
  exact (readable_spoken d l m hl hm [] [] trivial trivial (by simp [h])).1

/-- A domain with a predicate that is called `not`, and with one that has no arguments. -/
def Walk.speech : Domain :=
  ⟨"line", ["place"], [⟨"not", [Walk.free "?x"]⟩, ⟨"done", []⟩], []⟩

/-- Literals of the domain, asserted and denied. -/
def Walk.sayings : List Literal :=
  [⟨.positive, "not", [Walk.place "a"]⟩, ⟨.negative, "not", [Walk.place "a"]⟩,
    ⟨.positive, "done", []⟩, ⟨.negative, "done", []⟩]

lemma Walk.speaks_sayings : ∀ l ∈ Walk.sayings, Walk.speech.Speaks l := by
  have hnot : Walk.speech.Speaks ⟨.positive, "not", [Walk.place "a"]⟩ :=
    @Domain.Speaks.apply _ "not" ⟨"not", [Walk.free "?x"]⟩ [⟨"a", "place"⟩] _ rfl rfl (by decide)
      (List.forall_mem_singleton.mpr (by decide))
  have hdone : Walk.speech.Speaks ⟨.positive, "done", []⟩ :=
    @Domain.Speaks.apply _ "done" ⟨"done", []⟩ [] _ rfl rfl (by decide) (List.forall_mem_nil _)
  simpa [Walk.sayings] using ⟨hnot, hnot.negate, hdone, hdone.negate⟩

/-- The literals of that domain are written in four ways, and a plan of one step that has them all
is not written like a plan of two steps that shares them out. -/
theorem walk_text_eq_iff :
    Walk.sayings.map Literal.pddl = ["(not a)", "(not (not a))", "(done )", "(not (done ))"] ∧
    (∀ l ∈ Walk.sayings, ∀ m ∈ Walk.sayings, l ≈ m ↔ l.pddl = m.pddl) ∧
    (⟨[⟨"rest", Walk.sayings⟩]⟩ : Plan).text ≠
      (⟨[⟨"rest", Walk.sayings.take 2⟩, ⟨"rest", Walk.sayings.drop 2⟩]⟩ : Plan).text := by
  have hover : ∀ ls : List Literal, ls ⊆ Walk.sayings →
      (⟨"rest", ls⟩ : Plan.Step).IsOver Walk.speech := by
    intro ls hls
    exact ⟨by simp [isBlank, blankRanges], fun l hl => Walk.speaks_sayings l (hls hl)⟩
  refine ⟨by decide, fun l hl m hm => ?_, fun h => ?_⟩
  · exact (text_eq_iff Walk.speech).1 l m (Walk.speaks_sayings l hl) (Walk.speaks_sayings m hm)
  · have hsame := ((text_eq_iff Walk.speech).2 _ _ ?_ ?_).mpr h
    · exact absurd hsame (by decide)
    · simpa using hover _ (List.Subset.refl _)
    · simpa using ⟨hover _ (List.take_subset 2 _), hover _ (List.drop_subset 2 _)⟩

end ClassicalPlanning
