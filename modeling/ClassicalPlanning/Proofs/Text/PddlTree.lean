/-
PDDL as expressions in brackets.

Every part of a domain and of a problem is an expression in brackets, or is written as several of
them.  If the names are words, and the variables that are declared are free, the text of the part
is read as these expressions, wherever it stops (`ReadsAs`): the layout, which is white space only,
does not matter, and a word does not run into what comes behind it.

To see this, a text is taken apart where a piece of the layout ends, since there is white space or a
bracket.  What is written between two pieces of the layout is known to be read as it should be, and
the tokens in the layout are found by evaluation.

So a domain and a problem are one expression each, and nothing else (`Domain.IsWorded.read?_pddl`,
`Problem.IsWorded.read?_pddl`).
-/
import ClassicalPlanning.Proofs.Text.LiteralText
import ClassicalPlanning.Proofs.Text.Sexp

namespace ClassicalPlanning

open Sexp Token

/-! ## Texts that read as expressions -/

/-- The text is read as the expressions wherever it stops. -/
def ReadsAs (text : String) (es : List Sexp) : Prop :=
  ∀ s, Stops isWordChar s → ofText (text.toList ++ s) = tokensAll es ++ ofText s

/-- The text is white space, of which there is some. -/
def IsGap (text : String) : Prop :=
  text.toList ≠ [] ∧ ∀ c ∈ text.toList, isBlank c

instance (text : String) : Decidable (IsGap text) :=
  decidable_of_iff (text.toList ≠ [] ∧ text.toList.all isBlank = true) (by simp [IsGap])

section

variable {text lead layout sep : String} {es es' : List Sexp} {s : List Char}

/-- White space is no token. -/
lemma ofText_blanks {u : List Char} (h : ∀ c ∈ u, isBlank c) : ofText (u ++ s) = ofText s := by
  induction u with
  | nil => rfl
  | cons c u ih =>
    obtain ⟨hc, hu⟩ := List.forall_mem_cons.mp h
    have hword : isWordChar c = false := by simp [isWordChar, hc]
    have hchar : ofChar c = [] := by
      rw [ofChar, if_neg, if_neg] <;> (rintro rfl; contradiction)
    rw [List.cons_append, ofText, List.foldr_cons, scan_eq_of_not_word hword, hchar,
      List.nil_append, close, ← ofText, ih hu]

lemma IsGap.stops (h : IsGap sep) (s : List Char) : Stops isWordChar (sep.toList ++ s) := by
  obtain ⟨c, u, hsep⟩ := List.exists_cons_of_ne_nil h.1
  have hc : isBlank c := h.2 c (hsep ▸ List.mem_cons_self)
  rw [hsep]
  exact stops_cons (by simp [isWordChar, hc]) _

namespace ReadsAs

lemma ofText_append (h : ReadsAs text es) (hs : Stops isWordChar s) :
    ofText (text.toList ++ s) = tokensAll es ++ ofText s :=
  h s hs

/-- A text stops before a piece of the layout. -/
lemma before (h : ReadsAs text es) (hlayout : BeginsApart layout.toList) (s : List Char) :
    ofText (text.toList ++ (layout.toList ++ s)) =
      tokensAll es ++ ofText (layout.toList ++ s) :=
  h _ (hlayout.stops s)

lemma word (h : IsWord text) : ReadsAs text [.atom text] :=
  fun _ hs => ofText_word h hs

/-- Expressions in brackets, of which the first ones are written with the opening bracket. -/
lemma list (hends : EndsApart lead.toList) (hlead : ofText lead.toList = .opening :: tokensAll es)
    (h : ReadsAs text es') : ReadsAs (lead ++ text ++ ")") [.list (es ++ es')] := by
  intro s _
  simp +decide only [String.toList_append, List.append_assoc, Token.ofText_append hends, h.before]
  simp only [hlead, tokensAll, tokens, tokensAll_append, List.append_assoc, List.cons_append,
    List.nil_append]
  rfl

/-- A name in brackets with what it is applied to. -/
lemma application {name : String} (hname : IsWord name) (h : ReadsAs text es) :
    ReadsAs ("(" ++ name ++ " " ++ text ++ ")") [.list (.atom name :: es)] := by
  intro s _
  simp +decide only [String.toList_append, List.append_assoc, Token.ofText_append,
    (word hname).before, h.before]
  simp only [tokensAll, tokens, List.append_assoc, List.cons_append, List.nil_append]
  rfl

section Lists

variable {α : Type} {f : α → String} {g : α → List Sexp} {l : List α}

/-- Texts with white space before each of them are read one by one. -/
lemma ofText_flatMap (hsep : IsGap sep) (h : ∀ a ∈ l, ReadsAs (f a) (g a))
    (hs : Stops isWordChar s) :
    ofText ((l.flatMap fun a => sep.toList ++ (f a).toList) ++ s) =
      tokensAll (l.flatMap g) ++ ofText s := by
  induction l with
  | nil => rfl
  | cons a l ih =>
    obtain ⟨ha, hl⟩ := List.forall_mem_cons.mp h
    have hrest := Readable.follows_flatMap hsep.stops (f := fun a => (f a).toList) l hs
    rw [List.flatMap_cons, List.append_assoc, List.append_assoc, ofText_blanks hsep.2,
      ha.ofText_append hrest, ih hl, List.flatMap_cons, tokensAll_append, List.append_assoc]

/-- Texts with white space between them are read one by one. -/
lemma intercalate (hsep : IsGap sep) (h : ∀ a ∈ l, ReadsAs (f a) (g a)) :
    ReadsAs (sep.intercalate (l.map f)) (l.flatMap g) := by
  intro s hs
  cases l with
  | nil => simp [tokensAll]
  | cons a l =>
    obtain ⟨ha, hl⟩ := List.forall_mem_cons.mp h
    have hrest := Readable.follows_flatMap hsep.stops (f := fun a => (f a).toList) l hs
    rw [String.toList_intercalate, List.map_map, Function.comp_def, Readable.intercalate_map_cons,
      List.append_assoc, ha.ofText_append hrest, ofText_flatMap hsep hl hs, List.flatMap_cons,
      tokensAll_append, List.append_assoc]

/-- This is so in particular if each text is one expression. -/
lemma items {g : α → Sexp} (hsep : IsGap sep) (h : ∀ a ∈ l, ReadsAs (f a) [g a]) :
    ReadsAs (sep.intercalate (l.map f)) (l.map g) := by
  have hitems : (l.flatMap fun a => [g a]) = l.map g := List.flatMap_pure_eq_map _ _
  rw [← hitems]
  exact intercalate hsep h

end Lists

end ReadsAs

end

/-! ## The parts of a domain -/

/-- A declared variable: its name, a dash and its type. -/
def Variable.sexps (v : Variable) : List Sexp :=
  [.atom v.name, .atom "-", .atom v.type]

/-- A predicate with its declared slots. -/
def Predicate.sexp (p : Predicate) : Sexp :=
  .list (.atom p.name :: p.slots.flatMap Variable.sexps)

/-- A literal with the labels of its arguments. -/
def Literal.sexp (l : Literal) : Sexp :=
  let atom := .list (.atom l.predicate :: l.arguments.map fun v => .atom v.label)
  match l.polarity with
  | .positive => atom
  | .negative => .list [.atom "not", atom]

/-- Literals that hold together: an expression, or none if there are no literals. -/
def conjunctionSexps (ls : List Literal) : List Sexp :=
  if 2 ≤ ls.length then [.list (.atom "and" :: ls.map Literal.sexp)] else ls.map Literal.sexp

/-- An action. -/
def Action.sexp (a : Action) : Sexp :=
  .list (.atom ":action" :: .atom a.name ::
    .atom ":parameters" :: .list (a.parameters.flatMap Variable.sexps) ::
    ((if a.freeVariables.isEmpty then []
      else [.atom ":vars", .list (a.freeVariables.flatMap Variable.sexps)]) ++
    .atom ":precondition" :: (conjunctionSexps a.preconditions ++
    .atom ":effect" :: conjunctionSexps a.effects)))

/-- A domain. -/
def Domain.sexp (d : Domain) : Sexp :=
  .list (.atom "define" :: .list [.atom "domain", .atom d.name] ::
    .list [.atom ":requirements", .atom ":strips", .atom ":typing"] ::
    .list (.atom ":types" :: d.types.map .atom) ::
    .list (.atom ":predicates" :: d.predicates.map Predicate.sexp) ::
    d.actions.map Action.sexp)

/-- A problem. -/
def Problem.sexp (p : Problem) : Sexp :=
  .list [.atom "define", .list [.atom "problem", .atom p.name],
    .list [.atom ":domain", .atom p.domain.name],
    .list (.atom ":objects" :: p.objects.flatMap fun (type, objects) =>
      objects.map (fun o => .atom o.name) ++ [.atom "-", .atom type]),
    .list (.atom ":init" :: p.state.map Literal.sexp),
    .list (.atom ":goal" :: conjunctionSexps p.goal)]

/-! ## Names that are words -/

/-- A free variable whose name and type are words. -/
structure Variable.IsDeclared (v : Variable) : Prop where
  free : v.value = none
  name : IsWord v.name
  type : IsWord v.type

instance (v : Variable) : Decidable v.IsDeclared :=
  decidable_of_iff (v.value = none ∧ IsWord v.name ∧ IsWord v.type)
    ⟨fun ⟨free, name, type⟩ => ⟨free, name, type⟩, fun ⟨free, name, type⟩ => ⟨free, name, type⟩⟩

/-- A predicate whose name is a word, and whose slots are declared. -/
structure Predicate.IsWorded (p : Predicate) : Prop where
  name : IsWord p.name
  slots : ∀ v ∈ p.slots, v.IsDeclared

instance (p : Predicate) : Decidable p.IsWorded :=
  decidable_of_iff (IsWord p.name ∧ ∀ v ∈ p.slots, v.IsDeclared)
    ⟨fun ⟨name, slots⟩ => ⟨name, slots⟩, fun ⟨name, slots⟩ => ⟨name, slots⟩⟩

/-- An action whose names are words, and whose variables are declared. -/
structure Action.IsWorded (a : Action) : Prop where
  name : IsWord a.name
  parameters : ∀ v ∈ a.parameters, v.IsDeclared
  freeVariables : ∀ v ∈ a.freeVariables, v.IsDeclared
  preconditions : ∀ l ∈ a.preconditions, l.IsWorded
  effects : ∀ l ∈ a.effects, l.IsWorded

instance (a : Action) : Decidable a.IsWorded :=
  decidable_of_iff (IsWord a.name ∧ (∀ v ∈ a.parameters, v.IsDeclared) ∧
      (∀ v ∈ a.freeVariables, v.IsDeclared) ∧ (∀ l ∈ a.preconditions, l.IsWorded) ∧
      ∀ l ∈ a.effects, l.IsWorded)
    ⟨fun ⟨h₁, h₂, h₃, h₄, h₅⟩ => ⟨h₁, h₂, h₃, h₄, h₅⟩,
      fun ⟨h₁, h₂, h₃, h₄, h₅⟩ => ⟨h₁, h₂, h₃, h₄, h₅⟩⟩

/-- A domain whose names are words, and whose variables are declared. -/
structure Domain.IsWorded (d : Domain) : Prop where
  name : IsWord d.name
  types : ∀ type ∈ d.types, IsWord type
  predicates : ∀ p ∈ d.predicates, p.IsWorded
  actions : ∀ a ∈ d.actions, a.IsWorded

/-- A problem whose names are words.  No object is called by the dash that ends its group. -/
structure Problem.IsWorded (p : Problem) : Prop where
  name : IsWord p.name
  domain : IsWord p.domain.name
  types : ∀ group ∈ p.objects, IsWord group.1
  objects : ∀ group ∈ p.objects, ∀ o ∈ group.2, IsWord o.name ∧ o.name ≠ "-"
  state : ∀ l ∈ p.state, l.IsWorded
  goal : ∀ l ∈ p.goal, l.IsWorded

/-! ## Texts of the parts -/

lemma Variable.IsDeclared.readsAs {v : Variable} (h : v.IsDeclared) : ReadsAs v.pddl v.sexps := by
  have hname := ReadsAs.word h.name
  intro s hs
  rw [Variable.pddl, h.free]
  simp +decide only [String.toList_append, List.append_assoc, Token.ofText_append, hname.before,
    ofText_word h.type hs]
  rfl

lemma readsAs_variables {vs : List Variable} (h : ∀ v ∈ vs, v.IsDeclared) :
    ReadsAs (pddlVariables vs) (vs.flatMap Variable.sexps) :=
  .intercalate (by decide) fun v hv => (h v hv).readsAs

lemma Predicate.IsWorded.readsAs {p : Predicate} (h : p.IsWorded) : ReadsAs p.pddl [p.sexp] :=
  .application h.name (readsAs_variables h.slots)

lemma Literal.IsWorded.readsAs {l : Literal} (h : l.IsWorded) : ReadsAs l.pddl [l.sexp] := by
  have hlabels : ReadsAs (" ".intercalate (l.arguments.map Variable.label))
      (l.arguments.map fun v => .atom v.label) :=
    .items (by decide) fun v hv => .word (h.2 v hv)
  have hatom := ReadsAs.application h.1 hlabels
  have hnot : ofText "(not ".toList = .opening :: tokensAll [.atom "not"] := by decide
  rw [Literal.pddl, Literal.sexp]
  cases l.polarity with
  | positive => exact hatom
  | negative => exact .list (by decide) hnot hatom

lemma readsAs_conjunction {ls : List Literal} (h : ∀ l ∈ ls, l.IsWorded) :
    ReadsAs (pddlConjunction ls) (conjunctionSexps ls) := by
  have hbody : ReadsAs (" ".intercalate (ls.map Literal.pddl)) (ls.map Literal.sexp) :=
    .items (by decide) fun l hl => (h l hl).readsAs
  have hand : ofText "(and ".toList = .opening :: tokensAll [.atom "and"] := by decide
  rw [pddlConjunction, conjunctionSexps]
  split
  · exact .list (by decide) hand hbody
  · exact hbody

/-- The line of the free variables, which is left out if there are none. -/
lemma ofText_varsLine {vs : List Variable} (h : ∀ v ∈ vs, v.IsDeclared) (s : List Char) :
    ofText ((if vs.isEmpty then "" else
        "        :vars         (" ++ pddlVariables vs ++ ")\n").toList ++ s) =
      tokensAll (if vs.isEmpty then [] else [.atom ":vars", .list (vs.flatMap Variable.sexps)]) ++
        ofText s := by
  have hvars := readsAs_variables h
  split
  · rfl
  · simp +decide only [String.toList_append, List.append_assoc, Token.ofText_append, hvars.before]
    simp only [tokensAll, tokens, List.append_assoc, List.cons_append, List.nil_append]
    rfl

lemma Action.IsWorded.readsAs {a : Action} (h : a.IsWorded) : ReadsAs a.pddl [a.sexp] := by
  have hname := ReadsAs.word h.name
  have hparameters := readsAs_variables h.parameters
  have hpreconditions := readsAs_conjunction h.preconditions
  have heffects := readsAs_conjunction h.effects
  intro s _
  unfold Action.pddl Action.sexp
  simp +decide only [String.toList_append, List.append_assoc, Token.ofText_append, hname.before,
    hparameters.before, ofText_varsLine h.freeVariables, hpreconditions.before, heffects.before]
  simp only [tokensAll, tokens, tokensAll_append, List.append_assoc, List.cons_append,
    List.nil_append]
  rfl

/-- The actions of a domain have lines of their own. -/
lemma ofText_actionLines {as : List Action} (h : ∀ a ∈ as, a.IsWorded) (s : List Char) :
    ofText ((String.join (as.map fun a => "    " ++ a.pddl ++ "\n")).toList ++ s) =
      tokensAll (as.map Action.sexp) ++ ofText s := by
  induction as with
  | nil => simp [tokensAll]
  | cons a as ih =>
    obtain ⟨ha, has⟩ := List.forall_mem_cons.mp h
    have haction := ha.readsAs
    rw [List.map_cons, String.join_cons]
    simp +decide only [String.toList_append, List.append_assoc, Token.ofText_append, haction.before,
      ih has]
    simp only [List.map_cons, tokensAll, List.append_assoc, List.nil_append]
    rfl

/-- A domain with names that are words is one expression. -/
theorem Domain.IsWorded.read?_pddl {d : Domain} (h : d.IsWorded) : read? d.pddl = some d.sexp := by
  have hname := ReadsAs.word h.name
  have htypes : ReadsAs ("\n        ".intercalate d.types) (d.types.map .atom) := by
    have hitems : ReadsAs ("\n        ".intercalate (d.types.map id)) (d.types.map .atom) :=
      .items (by decide) fun type htype => .word (h.types type htype)
    rwa [List.map_id] at hitems
  have hpredicates : ReadsAs ("\n        ".intercalate (d.predicates.map Predicate.pddl))
      (d.predicates.map Predicate.sexp) :=
    .items (by decide) fun p hp => (h.predicates p hp).readsAs
  rw [read?_eq_some_iff]
  unfold Domain.pddl Domain.sexp
  simp +decide only [String.toList_append, List.append_assoc, Token.ofText_append, hname.before,
    htypes.before, hpredicates.before, ofText_actionLines h.actions]
  simp only [tokensAll, tokens, List.append_assoc, List.cons_append, List.nil_append]
  rfl

/-- The line of a group of objects. -/
lemma readsAs_group {type : TypeName} {objects : List Object} (htype : IsWord type)
    (hobjects : ∀ o ∈ objects, IsWord o.name) :
    ReadsAs (" ".intercalate (objects.map Object.name) ++ " - " ++ type)
      (objects.map (fun o => .atom o.name) ++ [.atom "-", .atom type]) := by
  have hnames : ReadsAs (" ".intercalate (objects.map Object.name))
      (objects.map fun o => .atom o.name) :=
    .items (by decide) fun o ho => .word (hobjects o ho)
  intro s hs
  simp +decide only [String.toList_append, List.append_assoc, Token.ofText_append, hnames.before,
    ofText_word htype hs]
  simp only [tokensAll, tokens, tokensAll_append, List.append_assoc, List.cons_append,
    List.nil_append]
  rfl

/-- A problem with names that are words is one expression. -/
theorem Problem.IsWorded.read?_pddl {p : Problem} (h : p.IsWorded) :
    read? p.pddl = some p.sexp := by
  have hname := ReadsAs.word h.name
  have hdomain := ReadsAs.word h.domain
  have hobjects : ReadsAs
      ("\n      ".intercalate (p.objects.map fun (type, objects) =>
        " ".intercalate (objects.map Object.name) ++ " - " ++ type))
      (p.objects.flatMap fun (type, objects) =>
        objects.map (fun o => .atom o.name) ++ [.atom "-", .atom type]) :=
    .intercalate (by decide) fun group hgroup =>
      readsAs_group (h.types group hgroup) fun o ho => (h.objects group hgroup o ho).1
  have hstate : ReadsAs ("\n      ".intercalate (p.state.map Literal.pddl))
      (p.state.map Literal.sexp) :=
    .items (by decide) fun l hl => (h.state l hl).readsAs
  have hgoal := readsAs_conjunction h.goal
  rw [read?_eq_some_iff]
  unfold Problem.pddl Problem.sexp
  simp +decide only [String.toList_append, List.append_assoc, Token.ofText_append, hname.before,
    hdomain.before, hobjects.before, hstate.before, hgoal.before]
  simp only [tokensAll, tokens, List.append_assoc, List.cons_append, List.nil_append]
  rfl

end ClassicalPlanning
