/-
Reading PDDL.

What is written of a domain or of a problem is its outline: everything but the names of bound
variables, and the types of the objects that they are bound to.  An outline is read from the
expression in brackets that the text is.

The reader has to tell apart

* an atom that is denied from an atom whose predicate is called `not`;
* several literals that hold together from a literal whose predicate is called `and`;
* conditions of which there are none from the word behind them;
* the last object of a group from the type of the group.

In the first two cases the next expression is in brackets or is a word, the word behind the
conditions is not in brackets, and before a type there is a dash, which is not the name of an
object.

The main result is `outline_of_pddl`.
-/
import ClassicalPlanning.Proofs.Language.Problem
import ClassicalPlanning.Proofs.Outcome
import ClassicalPlanning.Proofs.Text.PddlTree

namespace ClassicalPlanning

/-! ## What is written -/

/-- What is written of a literal: `Literal.pddl` depends on nothing else. -/
structure Wording where
  /-- The polarity and the predicate. -/
  head : Head
  /-- The labels of the arguments. -/
  labels : List String
deriving DecidableEq, Repr

/-- What is written of an action. -/
structure Action.Outline where
  /-- The name of the action. -/
  name : String
  /-- The parameters. -/
  parameters : List Variable
  /-- The free variables. -/
  freeVariables : List Variable
  /-- The preconditions. -/
  preconditions : List Wording
  /-- The effects. -/
  effects : List Wording
deriving DecidableEq, Repr

/-- What is written of a domain. -/
structure Domain.Outline where
  /-- The name of the domain. -/
  name : String
  /-- The declared types. -/
  types : List TypeName
  /-- The declared predicates. -/
  predicates : List Predicate
  /-- The actions. -/
  actions : List Action.Outline
deriving DecidableEq, Repr

/-- What is written of a problem. -/
structure Problem.Outline where
  /-- The name of the problem. -/
  name : String
  /-- The name of the domain. -/
  domain : String
  /-- The names of the objects of each type. -/
  objects : List (TypeName × List String)
  /-- The initial facts. -/
  state : List Wording
  /-- The goal. -/
  goal : List Wording
deriving DecidableEq, Repr

/-- What is written of the literal. -/
def Literal.wording (l : Literal) : Wording where
  head := l.head
  labels := l.arguments.map Variable.label

/-- What is written of the action. -/
def Action.outline (a : Action) : Action.Outline where
  name := a.name
  parameters := a.parameters
  freeVariables := a.freeVariables
  preconditions := a.preconditions.map Literal.wording
  effects := a.effects.map Literal.wording

/-- What is written of the domain. -/
def Domain.outline (d : Domain) : Domain.Outline where
  name := d.name
  types := d.types
  predicates := d.predicates
  actions := d.actions.map Action.outline

/-- What is written of the problem. -/
def Problem.outline (p : Problem) : Problem.Outline where
  name := p.name
  domain := p.domain.name
  objects := p.objects.map fun (type, objects) => (type, objects.map Object.name)
  state := p.state.map Literal.wording
  goal := p.goal.map Literal.wording

/-- The groups of objects, of which each object has the type of its group. -/
def Problem.Outline.groups (outline : Problem.Outline) : List (TypeName × List Object) :=
  outline.objects.map fun (type, names) => (type, names.map fun name => ⟨name, type⟩)

/-! ## The reader -/

namespace Sexp

/-- The word that an expression is. -/
def word? : Sexp → Option String
  | .atom w => some w
  | .list _ => none

/-- Declared variables. -/
def variables? : List Sexp → Option (List Variable)
  | [] => some []
  | .atom name :: .atom "-" :: .atom type :: es => (variables? es).map (.free name type :: ·)
  | _ => none

/-- A predicate with its slots. -/
def predicate? : Sexp → Option Predicate
  | .list (.atom name :: es) => (variables? es).map fun slots => ⟨name, slots⟩
  | _ => none

/-- A literal.  It is denied if behind the word `not` there is an expression in brackets. -/
def wording? : Sexp → Option Wording
  | .list [.atom "not", .list (.atom predicate :: es)] =>
    (es.mapM word?).map fun labels => ⟨⟨.negative, predicate⟩, labels⟩
  | .list (.atom predicate :: es) =>
    (es.mapM word?).map fun labels => ⟨⟨.positive, predicate⟩, labels⟩
  | _ => none

/-- Literals that hold together.  There are several if behind the word `and` there is an expression
in brackets. -/
def conjunction? : List Sexp → Option (List Wording)
  | [.list (.atom "and" :: .list e :: es)] => (.list e :: es).mapM wording?
  | es => es.mapM wording?

/-- The free variables that an action may begin with, and the rest of it. -/
def splitVariables : List Sexp → List Sexp × List Sexp
  | .atom ":vars" :: .list vs :: es => (vs, es)
  | es => ([], es)

/-- The preconditions and the effects of an action. -/
def splitConditions? : List Sexp → Option (List Sexp × List Sexp)
  | .atom ":precondition" :: .atom ":effect" :: effects => some ([], effects)
  | .atom ":precondition" :: e :: .atom ":effect" :: effects => some ([e], effects)
  | _ => none

/-- An action. -/
def action? : Sexp → Option Action.Outline
  | .list (.atom ":action" :: .atom name :: .atom ":parameters" :: .list parameters :: es) => do
    let (freeVariables, es) := splitVariables es
    let (preconditions, effects) ← splitConditions? es
    return {
      name
      parameters := ← variables? parameters
      freeVariables := ← variables? freeVariables
      preconditions := ← conjunction? preconditions
      effects := ← conjunction? effects }
  | _ => none

/-- A domain. -/
def domain? : Sexp → Option Domain.Outline
  | .list (.atom "define" :: .list [.atom "domain", .atom name] ::
      .list [.atom ":requirements", .atom ":strips", .atom ":typing"] ::
      .list (.atom ":types" :: types) :: .list (.atom ":predicates" :: predicates) ::
      actions) => do
    return {
      name
      types := ← types.mapM word?
      predicates := ← predicates.mapM predicate?
      actions := ← actions.mapM action? }
  | _ => none

/-- Objects in groups, where `names` are those of the group so far, the last first. -/
def groups? (names : List String) : List Sexp → Option (List (TypeName × List String))
  | [] => if names = [] then some [] else none
  | .atom "-" :: .atom type :: es => (groups? [] es).map ((type, names.reverse) :: ·)
  | .atom name :: es => groups? (name :: names) es
  | .list _ :: _ => none

/-- A problem. -/
def problem? : Sexp → Option Problem.Outline
  | .list [.atom "define", .list [.atom "problem", .atom name],
      .list [.atom ":domain", .atom domain], .list (.atom ":objects" :: objects),
      .list (.atom ":init" :: state), .list (.atom ":goal" :: goal)] => do
    return {
      name
      domain
      objects := ← groups? [] objects
      state := ← state.mapM wording?
      goal := ← conjunction? goal }
  | _ => none

end Sexp

/-! ## What is read -/

section

open Sexp

lemma variables?_sexps {vs : List Variable} (h : ∀ v ∈ vs, v.value = none) :
    variables? (vs.flatMap Variable.sexps) = some vs := by
  induction vs with
  | nil => rfl
  | cons v vs ih =>
    obtain ⟨hv, hvs⟩ := List.forall_mem_cons.mp h
    have hfree : Variable.free v.name v.type = v := by rw [Variable.free, ← hv]
    rw [List.flatMap_cons, Variable.sexps, List.cons_append, List.cons_append, List.cons_append,
      List.nil_append, variables?, ih hvs, Option.map_some, hfree]

lemma predicate?_sexp {p : Predicate} (h : ∀ v ∈ p.slots, v.value = none) :
    predicate? p.sexp = some p := by
  rw [Predicate.sexp, predicate?, variables?_sexps h, Option.map_some]

lemma mapM_word?_map_atom {α : Type} {f : α → String} (l : List α) :
    (l.map fun a => .atom (f a)).mapM word? = some (l.map f) :=
  mapM_map_eq_some fun _ _ => rfl

/-- Words are not in brackets. -/
lemma map_atom_ne_cons_list {α : Type} {f : α → String} (l : List α) (e es : List Sexp) :
    l.map (fun a => .atom (f a)) ≠ .list e :: es := by
  cases l <;> simp

/-- A denied literal is told from one whose predicate is `not` by the brackets around its atom. -/
lemma wording?_sexp (l : Literal) : wording? l.sexp = some l.wording := by
  obtain ⟨polarity, predicate, arguments⟩ := l
  cases polarity with
  | positive =>
    rw [Literal.sexp, wording?.eq_2 _ _ fun _ _ h _ => map_atom_ne_cons_list _ _ _ h,
      mapM_word?_map_atom]
    rfl
  | negative =>
    rw [Literal.sexp, wording?, mapM_word?_map_atom]
    rfl

lemma Literal.exists_sexp_eq_list (l : Literal) : ∃ es, l.sexp = .list es := by
  rw [Literal.sexp]
  cases l.polarity <;> exact ⟨_, rfl⟩

/-- A literal is told from several ones by the word that it begins with, or by what is behind this
word. -/
lemma Literal.sexp_ne_and (l : Literal) (e es : List Sexp) :
    l.sexp ≠ .list (.atom "and" :: .list e :: es) := by
  rw [Literal.sexp]
  cases l.polarity with
  | positive =>
    intro h
    rw [Sexp.list.injEq, List.cons.injEq] at h
    exact map_atom_ne_cons_list _ _ _ h.2
  | negative => simp

lemma mapM_wording?_map_sexp (ls : List Literal) :
    (ls.map Literal.sexp).mapM wording? = some (ls.map Literal.wording) :=
  mapM_map_eq_some fun l _ => wording?_sexp l

lemma conjunction?_sexps (ls : List Literal) :
    conjunction? (conjunctionSexps ls) = some (ls.map Literal.wording) := by
  have hread := mapM_wording?_map_sexp ls
  rw [conjunctionSexps]
  split
  -- The first of several literals is in brackets.
  · obtain _ | ⟨l, ls⟩ := ls
    · contradiction
    obtain ⟨es, hes⟩ := l.exists_sexp_eq_list
    rw [List.map_cons, hes] at hread ⊢
    rw [conjunction?, hread]
  · rw [conjunction?.eq_2 _ fun e es h => ?_, hread]
    obtain ⟨l, -, hl⟩ := List.map_eq_singleton_iff.mp h
    exact l.sexp_ne_and e es hl

lemma conjunctionSexps_eq (ls : List Literal) :
    conjunctionSexps ls = [] ∨ ∃ es, conjunctionSexps ls = [.list es] := by
  rw [conjunctionSexps]
  obtain _ | ⟨l, _ | ⟨m, ls⟩⟩ := ls
  · exact .inl rfl
  · exact .inr (l.exists_sexp_eq_list.imp fun es h => congrArg ([·]) h)
  · exact .inr ⟨_, rfl⟩

lemma splitConditions?_conjunctionSexps (preconditions effects : List Literal) :
    splitConditions? (.atom ":precondition" :: (conjunctionSexps preconditions ++
      .atom ":effect" :: conjunctionSexps effects)) =
        some (conjunctionSexps preconditions, conjunctionSexps effects) := by
  rcases conjunctionSexps_eq preconditions with h | ⟨es, h⟩
  · rw [h, List.nil_append, splitConditions?]
  · rw [h, List.cons_append, List.nil_append, splitConditions?.eq_2 (.list es) _ (nomatch ·)]

lemma splitVariables_varsLine (vs : List Variable) (es : List Sexp) :
    splitVariables ((if vs.isEmpty then [] else
      [.atom ":vars", .list (vs.flatMap Variable.sexps)]) ++ .atom ":precondition" :: es) =
        (vs.flatMap Variable.sexps, .atom ":precondition" :: es) := by
  cases vs with
  | nil => exact splitVariables.eq_2 _ (by simp)
  | cons v vs => rfl

lemma action?_sexp {a : Action} (hparameters : ∀ v ∈ a.parameters, v.value = none)
    (hfree : ∀ v ∈ a.freeVariables, v.value = none) : action? a.sexp = some a.outline := by
  simp only [Action.sexp, action?, splitVariables_varsLine, splitConditions?_conjunctionSexps,
    variables?_sexps hparameters, variables?_sexps hfree, conjunction?_sexps, Option.bind_eq_bind,
    Option.bind_some]
  rfl

/-- What is written of a domain is read from its expression. -/
lemma Domain.IsWorded.domain?_sexp {d : Domain} (h : d.IsWorded) :
    domain? d.sexp = some d.outline := by
  have htypes : (d.types.map Sexp.atom).mapM word? = some d.types := by
    have hread := mapM_word?_map_atom (f := id) d.types
    rwa [List.map_id] at hread
  have hpredicates :
      (d.predicates.map Predicate.sexp).mapM Sexp.predicate? = some d.predicates := by
    have hread := mapM_map_eq_some (f := Predicate.sexp) (g := Sexp.predicate?) (h := id)
      fun p hp => predicate?_sexp fun v hv => ((h.predicates p hp).slots v hv).free
    rwa [List.map_id] at hread
  have hactions : (d.actions.map Action.sexp).mapM action? = some (d.actions.map Action.outline) :=
    mapM_map_eq_some fun a ha =>
      action?_sexp (fun v hv => ((h.actions a ha).parameters v hv).free)
        fun v hv => ((h.actions a ha).freeVariables v hv).free
  simp only [Domain.sexp, domain?, htypes, hpredicates, hactions, Option.bind_eq_bind,
    Option.bind_some]
  rfl

/-- The names of a group of objects are read up to the dash. -/
lemma groups?_append {objects : List Object} (h : ∀ o ∈ objects, o.name ≠ "-") (names : List String)
    (type : TypeName) (es : List Sexp) :
    groups? names (objects.map (fun o => .atom o.name) ++ [.atom "-", .atom type] ++ es) =
      (groups? [] es).map ((type, names.reverse ++ objects.map Object.name) :: ·) := by
  induction objects generalizing names with
  | nil => rw [List.map_nil, List.map_nil, List.append_nil]; rfl
  | cons o objects ih =>
    obtain ⟨ho, hobjects⟩ := List.forall_mem_cons.mp h
    rw [List.map_cons, List.cons_append, List.cons_append, groups?.eq_3 _ _ _ fun _ _ _ => ho,
      ih hobjects, List.reverse_cons, List.append_assoc, List.singleton_append, List.map_cons]

lemma groups?_flatMap {groups : List (TypeName × List Object)}
    (h : ∀ group ∈ groups, ∀ o ∈ group.2, o.name ≠ "-") :
    groups? [] (groups.flatMap fun (type, objects) =>
      objects.map (fun o => .atom o.name) ++ [.atom "-", .atom type]) =
        some (groups.map fun (type, objects) => (type, objects.map Object.name)) := by
  induction groups with
  | nil => rfl
  | cons group groups ih =>
    obtain ⟨hgroup, hgroups⟩ := List.forall_mem_cons.mp h
    rw [List.flatMap_cons, groups?_append hgroup, ih hgroups]
    rfl

/-- What is written of a problem is read from its expression. -/
lemma Problem.IsWorded.problem?_sexp {p : Problem} (h : p.IsWorded) :
    problem? p.sexp = some p.outline := by
  have hobjects := groups?_flatMap fun group hgroup o ho => (h.objects group hgroup o ho).2
  simp only [Problem.sexp, problem?, hobjects, mapM_wording?_map_sexp, conjunction?_sexps,
    Option.bind_eq_bind, Option.bind_some]
  rfl

end

/-- The objects of a problem have the types of their groups. -/
lemma Problem.groups_outline {name : String} {d : Domain} {objects : List Object} {state : State}
    {goal : List Literal} {p : Problem} (h : ofParts name d objects state goal = .ok p) :
    p.outline.groups = p.objects := by
  obtain rfl := eq_of_ofParts h
  have hmember : ∀ type, (objects.filter fun o => o.type = type).map (fun o => ⟨o.name, type⟩) =
      objects.filter fun o => o.type = type := by
    intro type
    refine (List.map_congr_left fun o ho => ?_).trans (List.map_id _)
    obtain rfl : o.type = type := by simpa using (List.mem_filter.mp ho).2
    rfl
  simp only [outline, Outline.groups, groupByType, List.map_map, Function.comp_def, hmember]

/-- From the text of a domain or of a problem it can be told what is written of it. -/
theorem outline_of_pddl :
    (∀ d : Domain, d.IsWorded →
      ∃ e, Sexp.read? d.pddl = some e ∧ Sexp.domain? e = some d.outline) ∧
    (∀ p : Problem, p.IsWorded →
      ∃ e, Sexp.read? p.pddl = some e ∧ Sexp.problem? e = some p.outline) ∧
    (∀ d d' : Domain, d.IsWorded → d'.IsWorded → d.pddl = d'.pddl → d.outline = d'.outline) ∧
    (∀ p p' : Problem, p.IsWorded → p'.IsWorded → p.pddl = p'.pddl → p.outline = p'.outline) ∧
    ∀ name d objects state goal p, Problem.ofParts name d objects state goal = .ok p →
      p.outline.groups = p.objects := by
  refine ⟨fun d h => ⟨_, h.read?_pddl, h.domain?_sexp⟩,
    fun p h => ⟨_, h.read?_pddl, h.problem?_sexp⟩, fun d d' h h' heq => ?_,
    fun p p' h h' heq => ?_, fun _ _ _ _ _ _ => Problem.groups_outline⟩
  · have hsexp : d.sexp = d'.sexp := by
      rw [← Option.some.injEq, ← h.read?_pddl, ← h'.read?_pddl, heq]
    rw [← Option.some.injEq, ← h.domain?_sexp, ← h'.domain?_sexp, hsexp]
  · have hsexp : p.sexp = p'.sexp := by
      rw [← Option.some.injEq, ← h.read?_pddl, ← h'.read?_pddl, heq]
    rw [← Option.some.injEq, ← h.problem?_sexp, ← h'.problem?_sexp, hsexp]

namespace Riddle

/-- A variable that ranges over a type with an odd name. -/
def x : Variable :=
  .free "?x" "not"

/-- An object of this type. -/
def a : Variable :=
  x.fill ⟨"a", "not"⟩

/-- A domain in which predicates and actions have odd names, some conditions are missing, and there
is more than one of others. -/
def domain : Domain where
  name := "domain"
  types := ["not"]
  predicates := [⟨"and", [x, x]⟩, ⟨"not", []⟩]
  actions := [
    { name := ":vars"
      parameters := []
      freeVariables := [x]
      preconditions := []
      effects := [⟨.positive, "and", [x, x]⟩] },
    { name := ":effect"
      parameters := [x]
      freeVariables := []
      preconditions := [⟨.negative, "not", []⟩, ⟨.positive, "not", []⟩]
      effects := [] }]

/-- A problem in this domain. -/
def problem : Problem where
  name := "problem"
  domain := domain
  objects := [("not", [⟨"a", "not"⟩, ⟨":goal", "not"⟩])]
  state := [⟨.negative, "and", [a, a]⟩]
  goal := [⟨.positive, "and", [a, a]⟩]

/-- The same, but for a name that is not written, since the variable is bound. -/
def twin : Problem :=
  { problem with goal := [⟨.positive, "and", [{ a with name := "?y" }, a]⟩] }

end Riddle

open Riddle in
/-- Odd names do no harm, and texts are the same if there is no other difference than in names that
are not written. -/
theorem riddle_outline_of_pddl :
    (domain.IsWorded ∧
      ∃ e, Sexp.read? domain.pddl = some e ∧ Sexp.domain? e = some domain.outline) ∧
    (problem.IsWorded ∧
      ∃ e, Sexp.read? problem.pddl = some e ∧ Sexp.problem? e = some problem.outline) ∧
    (twin.IsWorded ∧ problem ≠ twin ∧ problem.pddl = twin.pddl ∧
      problem.outline = twin.outline) ∧
    Problem.ofParts "problem" domain [⟨"a", "not"⟩, ⟨":goal", "not"⟩] problem.state problem.goal =
      .ok problem ∧ problem.outline.groups = problem.objects := by
  have hdomain : domain.IsWorded := ⟨by decide, by decide, by decide, by decide⟩
  have hproblem : problem.IsWorded :=
    ⟨by decide, by decide, by decide, by decide, by decide, by decide⟩
  have htwin : twin.IsWorded :=
    ⟨by decide, by decide, by decide, by decide, by decide, by decide⟩
  have htext : problem.pddl = twin.pddl := rfl
  have hparts : Problem.ofParts "problem" domain [⟨"a", "not"⟩, ⟨":goal", "not"⟩] problem.state
      problem.goal = .ok problem := by
    decide
  obtain ⟨hread, hread', -, houtline, hgroups⟩ := outline_of_pddl
  exact ⟨⟨hdomain, hread domain hdomain⟩, ⟨hproblem, hread' problem hproblem⟩,
    ⟨htwin, by decide, htext, houtline problem twin hproblem htwin htext⟩, hparts,
    hgroups _ _ _ _ _ _ hparts⟩

end ClassicalPlanning
