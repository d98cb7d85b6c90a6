/-
Where ill-typed variables come from.

A bound variable is well typed when its value has its type.  Whatever gives a variable a value
compares the types: binding does, and so do the application of a predicate to objects and the
instances of effects, which both bind.  Everything else hands on the variables that it is given.
Reading a text is the exception, since a reader looks at the form of a variable only.

`Datum.Obtainable` are the data that can be had from a set of texts and from everything that
makes data: constructors, accessors, the operations on variables, literals and states, and
searches.  The main result is `obtainable_variable_iff`: a variable can be had just when it is
well typed or stands in a datum that one of the texts is read as.  Without texts every bound
variable has a value of its type; with texts, any variable at all can be had
(`obtainable_univ`), such as an arm that is bound to a container (`arm_holds_container`).
-/
import ClassicalPlanning.Proofs.Json.RoundTrip
import ClassicalPlanning.Proofs.Language.Predicate
import ClassicalPlanning.Proofs.Language.Problem
import ClassicalPlanning.Proofs.Matching.Arrangement
import ClassicalPlanning.Proofs.Search.Addition
import ClassicalPlanning.Proofs.Search.Run
import Mathlib.Data.Set.Insert

namespace ClassicalPlanning

/-- Data that hold variables. -/
inductive Datum where
  /-- A variable. -/
  | variable (v : Variable)
  /-- A literal. -/
  | literal (l : Literal)
  /-- A predicate. -/
  | predicate (p : Predicate)
  /-- An action. -/
  | action (a : Action)
  /-- A domain. -/
  | domain (d : Domain)
  /-- A problem. -/
  | problem (p : Problem)
  /-- A grounding of an action. -/
  | grounding (g : Grounding)
  /-- A node of a search tree. -/
  | node (n : Node)
  /-- A plan. -/
  | plan (p : Plan)

namespace Datum

/-- The data that the datum is made of and gives access to. -/
def parts : Datum → List Datum
  | .variable _ => []
  | .literal l => l.arguments.map .variable
  | .predicate p => p.slots.map .variable
  | .action a =>
    (a.parameters ++ a.freeVariables).map .variable ++ (a.preconditions ++ a.effects).map .literal
  | .domain d => d.predicates.map .predicate ++ d.actions.map .action
  | .problem p => .domain p.domain :: (p.state ++ p.goal).map .literal
  | .grounding g => g.matched.map .literal
  | .node n =>
    n.state.map .literal ++ n.path.flatMap fun m => [.action m.action, .grounding m.grounding]
  | .plan p => (p.steps.flatMap Plan.Step.matched).map .literal

/-- The variable stands somewhere in the datum. -/
inductive Contains : Datum → Variable → Prop
  | self (v : Variable) : Contains (.variable v) v
  | part {d e : Datum} {v : Variable} (he : e ∈ d.parts) (hv : Contains e v) : Contains d v

/-- Every variable in the datum has the property. -/
def All (P : Variable → Prop) (d : Datum) : Prop :=
  ∀ v, d.Contains v → P v

/-- The text is read as the datum. -/
inductive ReadFrom (text : String) : Datum → Prop
  | variable {v : Variable} (h : (Json.ofString? text).bind Variable.ofJson? = some v) :
      ReadFrom text (.variable v)
  | literal {l : Literal} (h : (Json.ofString? text).bind (Literal.ofJson? 0) = some l) :
      ReadFrom text (.literal l)
  | predicate {p : Predicate} (h : (Json.ofString? text).bind Predicate.ofJson? = some p) :
      ReadFrom text (.predicate p)
  | action {a : Action} (h : (Json.ofString? text).bind Action.ofJson? = some a) :
      ReadFrom text (.action a)
  | plan {p : Plan} (h : (Json.ofString? text).bind Plan.ofJson? = some p) :
      ReadFrom text (.plan p)

/-- The datum can be had, if the given texts are there to be read. -/
inductive Obtainable (texts : Set String) : Datum → Prop
  /-- A datum that a text is read as. -/
  | read {text : String} {d : Datum} (htext : text ∈ texts) (h : d.ReadFrom text) :
      Obtainable texts d
  /-- A datum that another one gives access to. -/
  | part {d e : Datum} (hd : Obtainable texts d) (he : e ∈ d.parts) : Obtainable texts e
  /-- A free variable. -/
  | free (name : String) (type : TypeName) : Obtainable texts (.variable (.free name type))
  /-- A variable that has been bound. -/
  | bind {v w : Variable} {o : Object} (hv : Obtainable texts (.variable v))
      (h : v.bind o = .ok w) : Obtainable texts (.variable w)
  /-- A variable that has been freed. -/
  | unbind {v : Variable} (hv : Obtainable texts (.variable v)) :
      Obtainable texts (.variable v.unbind)
  /-- A predicate with the given slots. -/
  | predicate {p : Predicate} (hp : ∀ e ∈ (Datum.predicate p).parts, Obtainable texts e) :
      Obtainable texts (.predicate p)
  /-- A predicate that is applied to objects and variables. -/
  | apply {p : Predicate} {arguments : List Argument} {l : Literal}
      (hp : Obtainable texts (.predicate p))
      (harguments : ∀ v, .variable v ∈ arguments → Obtainable texts (.variable v))
      (h : p.apply arguments = .ok l) : Obtainable texts (.literal l)
  /-- A literal of the other polarity. -/
  | negate {l : Literal} (hl : Obtainable texts (.literal l)) :
      Obtainable texts (.literal l.negate)
  /-- A literal whose variables have taken their values. -/
  | instantiate {σ : Substitution} {action : String} {e l : Literal}
      (he : Obtainable texts (.literal e)) (h : σ.applyLiteral action e = .ok l) :
      Obtainable texts (.literal l)
  /-- An action with the given variables and literals. -/
  | action {a : Action} (ha : ∀ e ∈ (Datum.action a).parts, Obtainable texts e) :
      Obtainable texts (.action a)
  /-- A domain with the given declarations. -/
  | domain {name : String} {types : List TypeName} {predicates : List Predicate}
      {actions : List Action} (hpredicates : ∀ p ∈ predicates, Obtainable texts (.predicate p))
      (hactions : ∀ a ∈ actions, Obtainable texts (.action a)) :
      Obtainable texts (.domain (.ofDeclarations name types predicates actions))
  /-- A problem that its domain admits. -/
  | problem {name : String} {d : Domain} {objects : List Object} {state goal : List Literal}
      {p : Problem} (hd : Obtainable texts (.domain d))
      (hliterals : ∀ l ∈ state ++ goal, Obtainable texts (.literal l))
      (h : Problem.ofParts name d objects state goal = .ok p) : Obtainable texts (.problem p)
  /-- A grounding that is made by hand. -/
  | grounding {g : Grounding} (hg : ∀ e ∈ (Datum.grounding g).parts, Obtainable texts e) :
      Obtainable texts (.grounding g)
  /-- A grounding of an action in a state. -/
  | ground {a : Action} {s : State} {g : Grounding} (ha : Obtainable texts (.action a))
      (hs : ∀ l ∈ s, Obtainable texts (.literal l)) (h : g ∈ a.groundings s) :
      Obtainable texts (.grounding g)
  /-- An effect of an action, for the facts of a grounding. -/
  | effect {a : Action} {g : Grounding} {effects : List Literal} {l : Literal}
      (ha : Obtainable texts (.action a)) (hg : Obtainable texts (.grounding g))
      (h : a.effectsFor g = .ok effects) (hl : l ∈ effects) : Obtainable texts (.literal l)
  /-- A fact of the state after an action. -/
  | fact {action : String} {s t : State} {matched effects : List Literal} {l : Literal}
      (hs : ∀ l ∈ s ++ effects, Obtainable texts (.literal l))
      (h : s.successor action matched effects = .ok t) (hl : l ∈ t) :
      Obtainable texts (.literal l)
  /-- The node of the initial state. -/
  | root {p : Problem} (hp : Obtainable texts (.problem p)) : Obtainable texts (.node (.root p))
  /-- A node that is marked as taken up. -/
  | takeUp {n : Node} (hn : Obtainable texts (.node n)) : Obtainable texts (.node n.takeUp)
  /-- A node that a move leads to. -/
  | move {n child : Node} {m : Move} (hn : Obtainable texts (.node n))
      (ha : Obtainable texts (.action m.action)) (hg : Obtainable texts (.grounding m.grounding))
      (h : n.apply m = .ok child) : Obtainable texts (.node child)
  /-- The node that a search has found. -/
  | found {p : Problem} {limits : SearchLimits} {fuel : ℕ} {report : Search.Report} {n : Node}
      (hp : Obtainable texts (.problem p)) (h : p.search? limits fuel = some (.ok report))
      (hn : report.node? = some n) : Obtainable texts (.node n)
  /-- The plan that leads to a node. -/
  | planOf {n : Node} (hn : Obtainable texts (.node n)) : Obtainable texts (.plan n.plan)
  /-- A plan of the given steps. -/
  | plan {p : Plan} (hp : ∀ e ∈ (Datum.plan p).parts, Obtainable texts e) :
      Obtainable texts (.plan p)

end Datum

/-- The variable stands in a datum that one of the texts is read as. -/
def Variable.IsReadFrom (texts : Set String) (v : Variable) : Prop :=
  ∃ text ∈ texts, ∃ d : Datum, d.ReadFrom text ∧ d.Contains v

/-! ## Variables that have been given a value -/

lemma Variable.wellTyped_of_value_eq_none {v : Variable} (h : v.value = none) : v.WellTyped := by
  simp [WellTyped, h]

lemma Variable.wellTyped_of_bind {v w : Variable} {o : Object} (h : v.bind o = .ok w) :
    w.WellTyped := by
  obtain ⟨htype, rfl⟩ := Variable.bind_eq_ok_iff.mp h
  exact wellTyped_fill_iff.mpr htype

/-- What stands in a slot has been bound there, or it is the argument itself. -/
lemma Argument.eq_or_wellTyped_of_fillSlot {slot w : Variable} {argument : Argument}
    (h : argument.fillSlot slot = .ok w) : argument = .variable w ∨ w.WellTyped := by
  cases argument with
  | object o => exact Or.inr (Variable.wellTyped_of_bind h)
  | «variable» v =>
    left
    simp only [fillSlot] at h
    split at h <;> simp_all

/-- The node that a search has found belongs to the search tree. -/
lemma Search.hasNode_of_node? {p : Problem} {limits : SearchLimits} {fuel : ℕ} {report : Report}
    {n : Node} (h : p.search? limits fuel = some (.ok report)) (hn : report.node? = some n) :
    p.HasNode n := by
  have hfound : report.outcome = .found n := by
    unfold Report.node? at hn
    split at hn <;> simp_all
  obtain ⟨visited, s, rest, hafter, hfrontier, -⟩ := exists_after_of_found h hfound
  exact hafter.hasNode (by simp [hfrontier])

namespace Datum

/-! ## Properties of all variables of a datum -/

section All

variable {P : Variable → Prop} {d : Datum}

lemma all_iff : d.All P ↔ (∀ v, d = .variable v → P v) ∧ ∀ e ∈ d.parts, e.All P := by
  constructor
  · intro h
    refine ⟨?_, fun e he v hv => h v (.part he hv)⟩
    rintro v rfl
    exact h v (.self v)
  · rintro ⟨hself, hparts⟩ v (_ | ⟨he, hv⟩)
    · exact hself v rfl
    · exact hparts _ he v hv

@[simp] lemma all_variable_iff {v : Variable} : (Datum.variable v).All P ↔ P v := by
  rw [all_iff]
  simp [parts]

@[simp] lemma all_literal_iff {l : Literal} :
    (Datum.literal l).All P ↔ ∀ v ∈ l.arguments, P v := by
  rw [all_iff]
  simp [parts]

lemma all_grounding_iff {g : Grounding} :
    (Datum.grounding g).All P ↔ ∀ l ∈ g.matched, (Datum.literal l).All P := by
  rw [all_iff]
  simp [parts]

/-- A datum that is not itself a variable has the property if its parts have it. -/
lemma all_of_parts (hd : ∀ v, d ≠ .variable v) (h : ∀ e ∈ d.parts, e.All P) : d.All P :=
  all_iff.mpr ⟨fun v hv => absurd hv (hd v), h⟩

lemma All.part (h : d.All P) {e : Datum} (he : e ∈ d.parts) : e.All P :=
  fun v hv => h v (.part he hv)

lemma all_node_iff {n : Node} :
    (Datum.node n).All P ↔ (∀ l ∈ n.state, (Datum.literal l).All P) ∧
      ∀ m ∈ n.path, (Datum.action m.action).All P ∧ (Datum.grounding m.grounding).All P := by
  rw [all_iff]
  simp only [reduceCtorEq, false_imp_iff, implies_true, true_and, parts, List.forall_mem_append,
    List.forall_mem_map, List.forall_mem_flatMap, List.forall_mem_cons,
    List.not_mem_nil, and_true]

@[simp] lemma all_takeUp_iff {n : Node} : (Datum.node n.takeUp).All P ↔ (Datum.node n).All P := by
  rw [all_node_iff, all_node_iff]
  rfl

lemma all_plan {n : Node} (hn : (Datum.node n).All P) : (Datum.plan n.plan).All P := by
  refine all_of_parts (by simp) (List.forall_mem_map.mpr fun l hl => ?_)
  obtain ⟨step, hstep, hl⟩ := List.mem_flatMap.mp hl
  obtain ⟨m, hm, rfl⟩ := List.mem_map.mp hstep
  have hmatched := ((all_node_iff.mp hn).2 m (List.mem_reverse.mp hm)).2
  exact all_grounding_iff.mp hmatched l hl

end All

/-! ## Operations -/

section Operations

variable {P : Variable → Prop} (hP : ∀ v : Variable, v.WellTyped → P v)
include hP

lemma all_apply {p : Predicate} {arguments : List Argument} {l : Literal}
    (harguments : ∀ v, .variable v ∈ arguments → P v) (h : p.apply arguments = .ok l) :
    (Datum.literal l).All P := by
  obtain ⟨-, filled, hfilled, rfl⟩ := Predicate.apply_eq_ok_iff.mp h
  refine all_literal_iff.mpr fun w hw => ?_
  obtain ⟨⟨slot, argument⟩, hmem, hfill⟩ := exists_of_mem_of_mapM_eq_ok hfilled hw
  rcases Argument.eq_or_wellTyped_of_fillSlot hfill with rfl | htyped
  · exact harguments w (List.of_mem_zip hmem).2
  · exact hP w htyped

lemma all_instantiate {σ : Substitution} {action : String} {e l : Literal}
    (he : (Datum.literal e).All P) (h : σ.applyLiteral action e = .ok l) :
    (Datum.literal l).All P := by
  refine all_literal_iff.mpr fun w hw => ?_
  obtain ⟨v, hv, hvw⟩ := Substitution.exists_of_mem_of_applyLiteral h hw
  rcases Substitution.eq_or_wellTyped_of_applyVariable hvw with rfl | htyped
  · exact all_literal_iff.mp he v hv
  · exact hP w htyped

lemma all_move {n child : Node} {m : Move} (hn : (Datum.node n).All P)
    (ha : (Datum.action m.action).All P) (hg : (Datum.grounding m.grounding).All P)
    (h : n.apply m = .ok child) : (Datum.node child).All P := by
  obtain ⟨hstate, hpath⟩ := all_node_iff.mp hn
  refine all_node_iff.mpr ⟨fun l hl => ?_, ?_⟩
  · rcases mem_state_or_adds_of_apply h l hl with hl | ⟨e, he, σ, -, happly⟩
    · exact hstate l hl
    · exact all_instantiate hP (ha.part (by simp [parts, he])) happly
  · obtain ⟨effects, state, -, -, rfl⟩ := apply_eq_ok_iff.mp h
    exact List.forall_mem_cons.mpr ⟨⟨ha, hg⟩, hpath⟩

/-- Every node of the search tree is made of what the problem is made of. -/
lemma all_of_hasNode {p : Problem} (hp : (Datum.problem p).All P) :
    ∀ n, p.HasNode n → (Datum.node n).All P := by
  have hdomain : (Datum.domain p.domain).All P := hp.part (by simp [parts])
  have hactions : ∀ a ∈ p.domain.actions, (Datum.action a).All P := fun a ha =>
    hdomain.part (by simp [parts, ha])
  refine forall_hasNode ?_ fun n _ hn child hchild => ?_
  · have hstate : ∀ l ∈ p.state, (Datum.literal l).All P := fun l hl =>
      hp.part (by simp [parts, hl])
    exact all_node_iff.mpr ⟨hstate, by simp [Problem.root, Node.root, Node.takeUp]⟩
  · obtain ⟨m, hm, next, hnext, rfl⟩ := mem_children.mp hchild
    obtain ⟨ha, hg⟩ := mem_moves_survey.mp hm
    have hmatched : (Datum.grounding m.grounding).All P := all_grounding_iff.mpr fun l hl =>
      (all_node_iff.mp hn).1 l (mem_of_mem_groundings hg hl)
    have hnext : (Datum.node next).All P := all_move hP hn (hactions _ ha) hmatched hnext
    exact all_takeUp_iff.mpr hnext

end Operations

/-! ## Data that can be had -/

section Obtainable

variable {texts : Set String} {d : Datum} {v : Variable}

/-- Every variable in a datum that can be had can be had itself. -/
lemma Obtainable.of_contains (hd : d.Obtainable texts) (hv : d.Contains v) :
    Obtainable texts (.variable v) := by
  induction hv with
  | self => exact hd
  | part he _ ih => exact ih (hd.part he)

lemma obtainable_of_wellTyped (hv : v.WellTyped) : Obtainable texts (.variable v) := by
  obtain ⟨name, type, value⟩ := v
  cases value with
  | none => exact .free name type
  | some o =>
    have hbind : (Variable.free name type).bind o = .ok ⟨name, type, some o⟩ :=
      Variable.bind_eq_ok_iff.mpr ⟨hv o rfl, rfl⟩
    exact (Obtainable.free name type).bind hbind

/-- No way to make a datum from others puts an ill-typed variable into it that was in none of
them. -/
lemma Obtainable.all (hd : d.Obtainable texts) :
    d.All fun v => v.WellTyped ∨ v.IsReadFrom texts := by
  have hP : ∀ v : Variable, v.WellTyped → v.WellTyped ∨ v.IsReadFrom texts := fun _ => Or.inl
  induction hd with
  | @read text d htext h => exact fun v hv => Or.inr ⟨text, htext, d, h, hv⟩
  | part _ he ih => exact ih.part he
  | free name type =>
    exact all_variable_iff.mpr (hP _ (Variable.wellTyped_of_value_eq_none rfl))
  | bind _ h => exact all_variable_iff.mpr (hP _ (Variable.wellTyped_of_bind h))
  | unbind => exact all_variable_iff.mpr (hP _ (Variable.wellTyped_of_value_eq_none rfl))
  | predicate _ ih => exact all_of_parts (by simp) ih
  | apply _ _ h _ ih => exact all_apply hP (fun v hv => all_variable_iff.mp (ih v hv)) h
  | negate _ ih => exact all_literal_iff.mpr fun w hw => all_literal_iff.mp ih w hw
  | instantiate _ h ih => exact all_instantiate hP ih h
  | action _ ih => exact all_of_parts (by simp) ih
  | domain _ _ ihpredicates ihactions =>
    refine all_of_parts (by simp) (List.forall_mem_append.mpr ⟨?_, ?_⟩)
    · exact List.forall_mem_map.mpr ihpredicates
    · exact List.forall_mem_map.mpr ihactions
  | problem _ _ h ihd ihliterals =>
    obtain rfl := Problem.eq_of_ofParts h
    refine all_of_parts (by simp) (List.forall_mem_cons.mpr ⟨ihd, ?_⟩)
    exact List.forall_mem_map.mpr ihliterals
  | grounding _ ih => exact all_of_parts (by simp) ih
  | ground _ _ h _ ihs =>
    exact all_grounding_iff.mpr fun l hl => ihs l (mem_of_mem_groundings h hl)
  | effect _ _ h hl iha _ =>
    obtain ⟨σ, -, hinstances⟩ := Action.effectsFor_eq_ok_iff.mp h
    obtain ⟨e, he, happly⟩ := exists_of_mem_of_mapM_eq_ok hinstances hl
    exact all_instantiate hP (iha.part (by simp [parts, he])) happly
  | fact _ h hl ih =>
    obtain ⟨rest, hrest, rfl⟩ := State.successor_eq_ok_iff.mp h
    refine ih _ (List.mem_append.mpr ((List.mem_append.mp hl).imp_left fun hl => ?_))
    exact (State.removeAll_eq_ok hrest).2.subset hl
  | root _ ih => exact all_takeUp_iff.mp (all_of_hasNode hP ih _ (hasNode_root _))
  | takeUp _ ih => exact all_takeUp_iff.mpr ih
  | move _ _ _ h ihn iha ihg => exact all_move hP ihn iha ihg h
  | found _ h hn ih => exact all_of_hasNode hP ih _ (Search.hasNode_of_node? h hn)
  | planOf _ ih => exact all_plan ih
  | plan _ ih => exact all_of_parts (by simp) ih

/-- **Ill-typed variables come from texts only.**  A variable can be had just when it is well
typed, or it stands in what one of the texts is read as. -/
theorem obtainable_variable_iff :
    Obtainable texts (.variable v) ↔ v.WellTyped ∨ v.IsReadFrom texts := by
  constructor
  · intro h
    exact all_variable_iff.mp h.all
  · rintro (hv | ⟨text, htext, d, hd, hv⟩)
    · exact obtainable_of_wellTyped hv
    · exact (Obtainable.read htext hd).of_contains hv

/-- A variable is read from the text that it is written as, whatever the types. -/
lemma readFrom_toCompactString (v : Variable) : ReadFrom v.toJson.toCompactString (.variable v) :=
  .variable v.restores.roundTrips.compact

/-- With every text to read, there is no variable that cannot be had. -/
theorem obtainable_univ (v : Variable) : Obtainable Set.univ (.variable v) :=
  .read (Set.mem_univ _) (readFrom_toCompactString v)

end Obtainable

/-- The text of an arm that is bound to a container. -/
def armText : String :=
  "\x7b\"name\":\"?k\",\"type\":\"arm\"," ++
    "\"value\":\x7b\"name\":\"ca\",\"type\":\"container\"\x7d\x7d"

/-- An arm that is bound to a container can be had. -/
theorem arm_holds_container :
    Obtainable {armText} (.variable ⟨"?k", "arm", some ⟨"ca", "container"⟩⟩) ∧
      ¬ Variable.WellTyped ⟨"?k", "arm", some ⟨"ca", "container"⟩⟩ := by
  refine ⟨.read rfl (.variable (by decide +kernel)), ?_⟩
  simp [Variable.WellTyped]

end Datum

end ClassicalPlanning
