/-
Round trips through text.

Whatever is written in JSON is read back.  A record is written with one member for each field,
under distinct keys, so every field is found again (`Json.fields?_object`).  A literal is written
with its polarity first, and therefore it may stand anywhere in a text.  `Json.Restores` says of a
value that what is written for it is plain and is read as the value; it passes from the parts of a
record to the record, one lemma for each kind of record.  Since a plain value is read back from
its compact and from its pretty form, so is whatever is written for a part of a planning language.

The value that is read is the one that was written, as data: the names that bound variables keep
are part of it.  Limits must be below the bound of a word of sixty-four bits, or they are refused
on reading.

The main result is `language_roundTrips`.
-/
import ClassicalPlanning.Json.Codec
import ClassicalPlanning.Proofs.Json.Spelling
import ClassicalPlanning.Proofs.Outcome

namespace ClassicalPlanning

namespace Json

variable {α : Type} {write : α → Json} {read : Json → Option α} {a : α}

/-! ## The fields of a record -/

variable {members : List (String × Json)} {key : String} {value : Json}

lemma valuesAt_eq_nil (h : key ∉ members.map Prod.fst) : valuesAt members key = [] := by
  rw [valuesAt, List.filterMap_eq_nil_iff]
  rintro ⟨k, value⟩ hmem
  have hne : k ≠ key := by
    rintro rfl
    exact h (List.mem_map_of_mem hmem)
  exact if_neg hne

lemma field?_eq_some (h : (members.map Prod.fst).Nodup) (hmem : (key, value) ∈ members) :
    field? members key = some (some value) := by
  have hvalues : valuesAt members key = [value] := by
    induction members with
    | nil => simp at hmem
    | cons member members ih =>
      obtain ⟨k, w⟩ := member
      obtain ⟨hk, hmembers⟩ := List.nodup_cons.mp h
      rcases List.mem_cons.mp hmem with heq | hmem
      · obtain ⟨rfl, rfl⟩ := Prod.mk.inj heq
        simpa [valuesAt] using valuesAt_eq_nil hk
      · have hne : k ≠ key := by
          rintro rfl
          exact hk (List.mem_map.mpr ⟨_, hmem, rfl⟩)
        simpa [valuesAt, hne] using ih hmembers hmem
  rw [field?, hvalues]

/-- Under distinct keys, every field of a record is found. -/
theorem fields?_object {short : Bool} {keys : List String}
    (hkeys : members.map Prod.fst = keys) (h : keys.Nodup) :
    fields? short keys (.object members) = some (members.map fun member => some member.2) := by
  subst hkeys
  exact mapM_map_eq_some fun _ hmem => field?_eq_some h hmem

/-! ## Values that are read back -/

/-- What is written for the value is plain, and the value is read from it. -/
structure Restores (write : α → Json) (read : Json → Option α) (a : α) : Prop where
  isPlain : (write a).IsPlain
  read_write : read (write a) = some a

namespace Restores

lemma string (s : String) : Restores Json.string string? s :=
  ⟨by simp [IsPlain], rfl⟩

lemma ofNat {n bound : Nat} (h : n < bound) :
    Restores Json.ofNat (fun j => j.natural?.filter (· < bound)) n :=
  ⟨by simp only [Json.ofNat, IsPlain]; exact ⟨n, rfl⟩, by simp [natural?_ofNat, h]⟩

lemma ofList {l : List α} (h : ∀ a ∈ l, Restores write read a) :
    Restores (Json.ofList write) (items? read) l where
  isPlain := by
    have hitems : ArePlain (l.map write) := by
      induction l with
      | nil => simp [ArePlain]
      | cons a l ih =>
        exact ⟨(h a List.mem_cons_self).isPlain, ih fun b hb => h b (List.mem_cons_of_mem a hb)⟩
    simpa [Json.ofList, IsPlain] using hitems
  read_write := by
    have hitems := mapM_map_eq_some (h := id) fun a ha => (h a ha).read_write
    simpa [Json.ofList, items?] using hitems

lemma ofOption (hnull : read .null = none) {o : Option α} (h : ∀ a ∈ o, Restores write read a) :
    Restores (Json.ofOption write) (option? read) o := by
  cases o with
  | none => exact ⟨by simp [Json.ofOption, IsPlain], rfl⟩
  | some a =>
    obtain ⟨hplain, hread⟩ := h a rfl
    refine ⟨hplain, ?_⟩
    -- What is written for a value is not `null`, since nothing is read from `null`.
    have hne : write a ≠ .null := by
      intro heq
      rw [heq, hnull] at hread
      exact absurd hread (by simp)
    rw [Json.ofOption, option?.eq_2 _ _ hne, hread, Option.map_some]

end Restores

end Json

/-! ## The parts of a planning language -/

open Json (Restores)

lemma Object.restores (o : Object) : Restores Object.toJson Object.ofJson? o where
  isPlain := by simp [toJson, Json.IsPlain, Json.HavePlain]
  read_write := by
    have hfields : o.toJson.fields? false ["name", "type"] =
        some [some (.string o.name), some (.string o.type)] := Json.fields?_object rfl (by decide)
    simp [ofJson?, hfields, Json.string?]

/-- A variable is read back with its name, also if it is bound. -/
lemma Variable.restores (v : Variable) : Restores Variable.toJson Variable.ofJson? v := by
  obtain ⟨hplain, hread⟩ : Restores (Json.ofOption Object.toJson) (Json.option? Object.ofJson?)
      v.value := .ofOption rfl fun o _ => o.restores
  refine ⟨by simp [toJson, Json.IsPlain, Json.HavePlain, hplain], ?_⟩
  have hfields : v.toJson.fields? false ["name", "type", "value"] =
      some [some (.string v.name), some (.string v.type),
        some (Json.ofOption Object.toJson v.value)] := Json.fields?_object rfl (by decide)
  simp [ofJson?, hfields, Json.string?, hread]

lemma restores_variables (l : List Variable) :
    Restores (Json.ofList Variable.toJson) (Json.items? Variable.ofJson?) l :=
  .ofList fun v _ => v.restores

namespace Literal

lemma ofFact?_factToJson (l : Literal) : ofFact? l.polarity l.factToJson = some l := by
  have hfields : l.factToJson.fields? false ["predicate", "variables"] =
      some [some (.string l.predicate), some (Json.ofList Variable.toJson l.arguments)] :=
    Json.fields?_object rfl (by decide)
  simp [ofFact?, hfields, Json.string?, (restores_variables l.arguments).read_write]

lemma ofMember?_word (p : Polarity) : Polarity.ofMember? (.string p.word) = some p := by
  cases p <;> rfl

/-- A literal is read back however deep it stands in its text, since its polarity comes before its
fact. -/
lemma restores (depth : Nat) (l : Literal) : Restores toJson (ofJson? depth) l where
  isPlain := by
    simp [toJson, factToJson, Json.IsPlain, Json.HavePlain,
      (restores_variables l.arguments).isPlain]
  read_write := by
    have hfirst : polarityFirst [("polarity", .string l.polarity.word), ("fact", l.factToJson)] :=
      rfl
    simp [toJson, ofJson?, Json.field?, Json.valuesAt, ofMember?_word, ofFact?_factToJson, hfirst]

end Literal

lemma restores_literals (depth : Nat) (l : List Literal) :
    Restores (Json.ofList Literal.toJson) (Json.items? (Literal.ofJson? depth)) l :=
  .ofList fun m _ => m.restores depth

lemma Predicate.restores (p : Predicate) : Restores Predicate.toJson Predicate.ofJson? p := by
  obtain ⟨hplain, hread⟩ := restores_variables p.slots
  refine ⟨by simp [toJson, Json.IsPlain, Json.HavePlain, hplain], ?_⟩
  have hfields : p.toJson.fields? false ["name", "slots"] =
      some [some (.string p.name), some (Json.ofList Variable.toJson p.slots)] :=
    Json.fields?_object rfl (by decide)
  simp [ofJson?, hfields, Json.string?, hread]

lemma Action.restores (a : Action) : Restores Action.toJson Action.ofJson? a := by
  obtain ⟨hparameters, hreadParameters⟩ := restores_variables a.parameters
  obtain ⟨hfree, hreadFree⟩ := restores_variables a.freeVariables
  obtain ⟨hpreconditions, hreadPreconditions⟩ := restores_literals 2 a.preconditions
  obtain ⟨heffects, hreadEffects⟩ := restores_literals 2 a.effects
  refine ⟨by simp [toJson, Json.IsPlain, Json.HavePlain, hparameters, hfree, hpreconditions,
    heffects], ?_⟩
  have hfields : a.toJson.fields? false
      ["name", "parameters", "free_variables", "preconditions", "effects"] =
      some [some (.string a.name), some (Json.ofList Variable.toJson a.parameters),
        some (Json.ofList Variable.toJson a.freeVariables),
        some (Json.ofList Literal.toJson a.preconditions),
        some (Json.ofList Literal.toJson a.effects)] := Json.fields?_object rfl (by decide)
  simp [ofJson?, hfields, Json.string?, hreadParameters, hreadFree, hreadPreconditions,
    hreadEffects]

lemma Plan.Step.restores (s : Plan.Step) : Restores Plan.Step.toJson Plan.Step.ofJson? s := by
  obtain ⟨hplain, hread⟩ := restores_literals 4 s.matched
  refine ⟨by simp [toJson, Json.IsPlain, Json.HavePlain, hplain], ?_⟩
  have hfields : s.toJson.fields? false ["action", "matched"] =
      some [some (.string s.action), some (Json.ofList Literal.toJson s.matched)] :=
    Json.fields?_object rfl (by decide)
  simp [ofJson?, hfields, Json.string?, hread]

lemma Plan.restores (p : Plan) : Restores Plan.toJson Plan.ofJson? p := by
  obtain ⟨hplain, hread⟩ : Restores (Json.ofList Plan.Step.toJson) (Json.items? Plan.Step.ofJson?)
      p.steps := .ofList fun s _ => s.restores
  refine ⟨by simp [toJson, Json.IsPlain, Json.HavePlain, hplain], ?_⟩
  have hfields : p.toJson.fields? false ["steps"] =
      some [some (Json.ofList Plan.Step.toJson p.steps)] := Json.fields?_object rfl (by decide)
  simp [ofJson?, hfields, hread]

namespace SearchLimits

/-- A limit is read back if it is below the bound of a word. -/
lemma restores_limit {limit : Option Nat} (h : ∀ n ∈ limit, n < word64Bound) :
    Restores (Json.ofOption Json.ofNat) limitOfJson? limit :=
  .ofOption rfl fun n hn => .ofNat (h n hn)

lemma restores {limits : SearchLimits} (hlevel : ∀ n ∈ limits.maxLevel, n < word64Bound)
    (hexpansions : ∀ n ∈ limits.maxExpansions, n < word64Bound) :
    Restores toJson ofJson? limits := by
  obtain ⟨hplainLevel, hreadLevel⟩ := restores_limit hlevel
  obtain ⟨hplainExpansions, hreadExpansions⟩ := restores_limit hexpansions
  refine ⟨by simp [toJson, Json.IsPlain, Json.HavePlain, hplainLevel, hplainExpansions], ?_⟩
  have hfields : limits.toJson.fields? true ["max_level", "max_expansions", "log_progress"] =
      some [some (Json.ofOption Json.ofNat limits.maxLevel),
        some (Json.ofOption Json.ofNat limits.maxExpansions), some (.bool limits.logProgress)] :=
    Json.fields?_object rfl (by decide)
  simp [ofJson?, hfields, hreadLevel, hreadExpansions, Json.bool?]

end SearchLimits

/-! ## Texts -/

/-- The text that the value is written as is read as the value, and it is written again for the
value that has been read, both in the compact and in the pretty form. -/
structure Json.RoundTrips {α : Type} (write : α → Json) (read : Json → Option α) (a : α) :
    Prop where
  compact : (Json.ofString? (write a).toCompactString).bind read = some a
  pretty : (Json.ofString? (write a).toPrettyString).bind read = some a
  compact_again : ((Json.ofString? (write a).toCompactString).bind read).map
    (fun b => (write b).toCompactString) = some (write a).toCompactString
  pretty_again : ((Json.ofString? (write a).toPrettyString).bind read).map
    (fun b => (write b).toPrettyString) = some (write a).toPrettyString

lemma Json.Restores.roundTrips {α : Type} {write : α → Json} {read : Json → Option α} {a : α}
    (h : Restores write read a) : Json.RoundTrips write read a := by
  have hcompact : (Json.ofString? (write a).toCompactString).bind read = some a := by
    rw [Json.ofString?_toCompactString h.isPlain, Option.bind_some, h.read_write]
  have hpretty : (Json.ofString? (write a).toPrettyString).bind read = some a := by
    rw [Json.ofString?_toPrettyString h.isPlain, Option.bind_some, h.read_write]
  exact ⟨hcompact, hpretty, by rw [hcompact, Option.map_some], by rw [hpretty, Option.map_some]⟩

/-- **Reading undoes writing.**  Every part of a planning language, every plan and all limits of a
search that a word can hold are read back, as the same data, from the compact and from the pretty
text that they are written as, and they are then written as the same text again. -/
theorem language_roundTrips :
    (∀ type : TypeName, Json.RoundTrips Json.string Json.string? type) ∧
    (∀ o : Object, Json.RoundTrips Object.toJson Object.ofJson? o) ∧
    (∀ v : Variable, Json.RoundTrips Variable.toJson Variable.ofJson? v) ∧
    (∀ p : Predicate, Json.RoundTrips Predicate.toJson Predicate.ofJson? p) ∧
    (∀ l : Literal, Json.RoundTrips Literal.toJson (Literal.ofJson? 0) l) ∧
    (∀ a : Action, Json.RoundTrips Action.toJson Action.ofJson? a) ∧
    (∀ p : Plan, Json.RoundTrips Plan.toJson Plan.ofJson? p) ∧
    (∀ limits : SearchLimits, (∀ n ∈ limits.maxLevel, n < word64Bound) →
      (∀ n ∈ limits.maxExpansions, n < word64Bound) →
      Json.RoundTrips SearchLimits.toJson SearchLimits.ofJson? limits) :=
  ⟨fun type => (Restores.string type).roundTrips, fun o => o.restores.roundTrips,
    fun v => v.restores.roundTrips, fun p => p.restores.roundTrips,
    fun l => (l.restores 0).roundTrips, fun a => a.restores.roundTrips,
    fun p => p.restores.roundTrips,
    fun _ hlevel hexpansions => (SearchLimits.restores hlevel hexpansions).roundTrips⟩

/-- The greatest limits that a word can hold are read back. -/
theorem greatest_limits_roundTrip :
    18446744073709551615 < word64Bound ∧ Json.RoundTrips SearchLimits.toJson SearchLimits.ofJson?
      { maxLevel := some 18446744073709551615, maxExpansions := some 0, logProgress := false } :=
  have hlevel : ∀ n ∈ some 18446744073709551615, n < word64Bound := by
    rintro n ⟨⟩
    decide
  have hexpansions : ∀ n ∈ some 0, n < word64Bound := by
    rintro n ⟨⟩
    decide
  ⟨by decide, language_roundTrips.2.2.2.2.2.2.2 _ hlevel hexpansions⟩

end ClassicalPlanning
