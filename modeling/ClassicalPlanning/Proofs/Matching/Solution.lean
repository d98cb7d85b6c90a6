/-
Solutions of a match.

Patterns and as many literals set a problem: find objects for the names of the free variables such
that each pattern becomes the literal that stands against it.  A substitution that does so is a
solution, and so is every substitution that keeps its bindings.  The matcher finds a solution
whenever there is one, and it finds the least of them, which binds nothing but the free variables
of the patterns; so it does not matter in which order patterns and literals are gone through.

For this the literals have to be well typed, since the matcher takes their objects as they are, and
free variables of one name have to be of one type, since it compares only the names of objects that
meet under one name.  Then objects of one name that meet are the same object: it has the type of
the variable in a solution, and it has that type in a well-typed literal (`le_of_solves`).

The main result is `matching_finds_least`.
-/
import ClassicalPlanning.Proofs.Matching.Fit
import ClassicalPlanning.Proofs.Walk
import Mathlib.Order.Bounds.Basic

namespace ClassicalPlanning

/-- Free variables of one name have one type throughout the patterns. -/
def TypedByName (ps : List Literal) : Prop :=
  ∀ p ∈ ps, ∀ q ∈ ps, ∀ v ∈ p.arguments, ∀ w ∈ q.arguments,
    v.value = none → w.value = none → v.name = w.name → v.type = w.type

instance (ps : List Literal) : Decidable (TypedByName ps) :=
  inferInstanceAs (Decidable (∀ p ∈ ps, ∀ q ∈ ps, ∀ v ∈ p.arguments, ∀ w ∈ q.arguments,
    v.value = none → w.value = none → v.name = w.name → v.type = w.type))

namespace Substitution

/-- A substitution is below those that keep its bindings. -/
instance : PartialOrder Substitution where
  le σ τ := τ.Extends σ
  le_refl _ _ _ hx := hx
  le_trans _ _ _ hστ hτρ x o hx := hτρ x o (hστ x o hx)
  le_antisymm _ _ hστ hτσ := ext_get? fun x => Option.ext fun o => ⟨hστ x o, hτσ x o⟩

/-- Under the substitution the pattern becomes a literal that says what `l` says.  The action is
named in faults only. -/
def Instantiates (θ : Substitution) (action : String) (p l : Literal) : Prop :=
  ∃ m, θ.applyLiteral action p = .ok m ∧ m ≈ l

/-- Under the substitution each pattern becomes the literal that stands against it. -/
def Solves (θ : Substitution) (action : String) (ps ls : List Literal) : Prop :=
  List.Forall₂ (θ.Instantiates action) ps ls

/-- What is bound at the free variables of the pattern has their types. -/
def SuitsTypes (σ : Substitution) (p : Literal) : Prop :=
  ∀ v ∈ p.arguments, v.value = none → ∀ o ∈ σ.get? v.name, o.type = v.type

instance (σ : Substitution) (p : Literal) : Decidable (σ.SuitsTypes p) :=
  inferInstanceAs (Decidable (∀ v ∈ p.arguments, v.value = none →
    ∀ o ∈ σ.get? v.name, o.type = v.type))

/-- The free variables of the pattern are bound to objects of their types. -/
def Supplies (θ : Substitution) (p : Literal) : Prop :=
  ∀ v ∈ p.arguments, v.value = none → ∃ o, θ.get? v.name = some o ∧ o.type = v.type

variable {σ₀ σ θ : Substitution} {action : String} {p l : Literal} {ps ls : List Literal}

lemma empty_le (θ : Substitution) : ∅ ≤ θ := by
  intro x o hx
  simp at hx

/-! ## Solutions -/

lemma exists_applyVariable_iff {v : Variable} : (∃ w, θ.applyVariable action v = .ok w) ↔
    (v.value = none → ∃ o, θ.get? v.name = some o ∧ o.type = v.type) := by
  simp only [applyVariable_eq_ok_iff]
  constructor
  · rintro ⟨w, ⟨hbound, -⟩ | ⟨-, o, ho, htype, -⟩⟩ hfree
    · simp [Variable.isBound, hfree] at hbound
    · exact ⟨o, ho, htype⟩
  · intro h
    cases hvalue : v.value with
    | some constant => exact ⟨v, Or.inl ⟨by simp [Variable.isBound, hvalue], rfl⟩⟩
    | none =>
      obtain ⟨o, ho, htype⟩ := h hvalue
      exact ⟨v.fill o, Or.inr ⟨rfl, o, ho, htype, rfl⟩⟩

lemma exists_applyLiteral_iff : (∃ m, θ.applyLiteral action p = .ok m) ↔ θ.Supplies p := by
  have harguments : (∃ vs, p.arguments.mapM (θ.applyVariable action) = .ok vs) ↔ θ.Supplies p := by
    simp only [exists_mapM_eq_ok_iff, exists_applyVariable_iff, Supplies]
  rw [← harguments]
  simp only [applyLiteral_eq_ok_iff]
  constructor
  · rintro ⟨-, vs, hvs, -⟩
    exact ⟨vs, hvs⟩
  · rintro ⟨vs, hvs⟩
    exact ⟨_, vs, hvs, rfl⟩

/-- A pattern becomes a literal if it can be instantiated at all and then says what the literal
says. -/
lemma instantiates_iff :
    θ.Instantiates action p l ↔ θ.Supplies p ∧ l.proposition = θ.proposition p := by
  constructor
  · rintro ⟨m, hm, hml⟩
    exact ⟨exists_applyLiteral_iff.mp ⟨m, hm⟩, hml.symm.trans (proposition_of_applyLiteral hm)⟩
  · rintro ⟨hp, hl⟩
    obtain ⟨m, hm⟩ := exists_applyLiteral_iff.mpr hp
    exact ⟨m, hm, (proposition_of_applyLiteral hm).trans hl.symm⟩

lemma solves_iff : θ.Solves action ps ls ↔
    (∀ p ∈ ps, θ.Supplies p) ∧ ls.map Literal.proposition = ps.map θ.proposition := by
  have heq : List.Forall₂ (fun p l => Literal.proposition l = θ.proposition p) ps ls ↔
      ls.map Literal.proposition = ps.map θ.proposition := by
    rw [eq_comm, ← List.forall₂_eq_eq_eq, List.forall₂_map_left_iff, List.forall₂_map_right_iff]
    simp only [eq_comm]
  have hrel : θ.Instantiates action =
      fun p l => θ.Supplies p ∧ Literal.proposition l = θ.proposition p :=
    funext fun _ => funext fun _ => propext instantiates_iff
  rw [Solves, hrel, List.forall₂_and_left, heq]

lemma Solves.length_eq (h : θ.Solves action ps ls) : ls.length = ps.length :=
  (List.Forall₂.length_eq h).symm

/-- A variable of a pattern stands for an object once the pattern can be instantiated. -/
lemma Supplies.exists_referent (h : θ.Supplies p) {v : Variable} (hv : v ∈ p.arguments) :
    ∃ x, θ.referent v = .constant x v.type := by
  cases hvalue : v.value with
  | some constant =>
    exact ⟨constant.name, referent_eq_of_or_eq_some (by rw [hvalue, Option.some_or])⟩
  | none =>
    obtain ⟨o, ho, -⟩ := h v hv hvalue
    exact ⟨o.name, referent_eq_of_or_eq_some (by rw [hvalue, Option.none_or, ho])⟩

/-- Literals fit the patterns that become them. -/
lemma Solves.fits (h : θ.Solves action ps ls) : θ.Fits ps ls where
  ground l hl := by
    obtain ⟨hps, hpropositions⟩ := solves_iff.mp h
    obtain ⟨p, hp, hpl⟩ : ∃ p ∈ ps, θ.proposition p = l.proposition :=
      List.mem_map.mp (hpropositions ▸ List.mem_map_of_mem hl)
    exact isGround_of_proposition_eq (fun v hv => (hps p hp).exists_referent hv) hpl.symm
  propositions_eq := (solves_iff.mp h).2

/-! ## What the matcher finds -/

/-- Under the types of the free variables, what is bound in a match has the type of each variable
of its name. -/
lemma supplies_of_matchLiterals (hlength : ls.length = ps.length) (htypes : TypedByName ps)
    (hls : ∀ l ∈ ls, l.WellTyped) (hσ₀ : ∀ p ∈ ps, σ₀.SuitsTypes p)
    (h : σ₀.matchLiterals ps ls = .ok σ) : ∀ p ∈ ps, σ.Supplies p := by
  have hgrown := grown_of_matchLiterals hlength h
  intro p hp v hv hfree
  obtain ⟨o, ho⟩ := hgrown.covers v (List.mem_flatMap.mpr ⟨p, hp, hv⟩) hfree
  refine ⟨o, ho, ?_⟩
  rcases hgrown.origin v.name o ho with hold | ⟨u, hu, w, hw, hufree, hname, hvalue, htype⟩
  · exact hσ₀ p hp v hv hfree o hold
  · obtain ⟨q, hq, huq⟩ := List.mem_flatMap.mp hu
    obtain ⟨l, hl, hwl⟩ := List.mem_flatMap.mp hw
    calc o.type = w.type := hls l hl w hwl o hvalue
      _ = u.type := htype.symm
      _ = v.type := htypes q hq p hp u huq v hv hufree hfree hname

lemma solves_of_matchLiterals (hlength : ls.length = ps.length) (htypes : TypedByName ps)
    (hls : ∀ l ∈ ls, l.WellTyped) (hσ₀ : ∀ p ∈ ps, σ₀.SuitsTypes p)
    (h : σ₀.matchLiterals ps ls = .ok σ) : σ.Solves action ps ls :=
  solves_iff.mpr ⟨supplies_of_matchLiterals hlength htypes hls hσ₀ h,
    propositions_of_matchLiterals hlength h (le_refl σ)⟩

/-- What is bound in a match is bound in every solution that keeps the bindings it starts from. -/
lemma le_of_solves (hls : ∀ l ∈ ls, l.WellTyped) (h : σ₀.matchLiterals ps ls = .ok σ)
    (hσ₀ : σ₀ ≤ θ) (hθ : θ.Solves action ps ls) : σ ≤ θ := by
  have hwithin₀ : σ₀.Within θ := fun x o hx => ⟨o, hσ₀ x o hx, rfl⟩
  obtain ⟨ρ, hρ, hwithin⟩ := hθ.fits.exists_matchLiterals hwithin₀
  obtain rfl : σ = ρ := Except.ok.inj (h.symm.trans hρ)
  intro x o hx
  rcases (grown_of_matchLiterals hθ.length_eq h).origin x o hx with
    hold | ⟨v, hv, w, hw, hfree, rfl, hvalue, htype⟩
  · exact hσ₀ x o hold
  -- The solution binds the name to an object of the same name, and both have the variable's type.
  · obtain ⟨p, hp, hvp⟩ := List.mem_flatMap.mp hv
    obtain ⟨l, hl, hwl⟩ := List.mem_flatMap.mp hw
    obtain ⟨o', ho', hname⟩ := hwithin v.name o hx
    obtain ⟨o'', ho'', htype'⟩ := (solves_iff.mp hθ).1 p hp v hvp hfree
    obtain rfl : o' = o'' := Option.some.inj (ho'.symm.trans ho'')
    have htypes : o'.type = o.type := htype'.trans (htype.trans (hls l hl w hwl o hvalue).symm)
    obtain rfl : o' = o := by
      obtain ⟨name, type⟩ := o
      obtain ⟨name', type'⟩ := o'
      simp_all
    exact ho'

end Substitution

/-- The outcome of a match is the least of the substitutions asked for, if there is one at all. -/
structure FindsLeast (outcome : Except Mismatch Substitution) (solutions : Set Substitution) :
    Prop where
  exists_iff : (∃ σ, outcome = .ok σ) ↔ solutions.Nonempty
  isLeast : ∀ σ, outcome = .ok σ → IsLeast solutions σ

section Matching

variable {σ₀ σ θ : Substitution} {action : String} {p l : Literal} {ps ls : List Literal}

lemma FindsLeast.eq_ok_iff {outcome : Except Mismatch Substitution}
    {solutions : Set Substitution} (h : FindsLeast outcome solutions) :
    outcome = .ok σ ↔ IsLeast solutions σ := by
  refine ⟨h.isLeast σ, fun hσ => ?_⟩
  obtain ⟨τ, hτ⟩ := h.exists_iff.mpr hσ.nonempty
  rw [hτ, (h.isLeast τ hτ).unique hσ]

/-- From every start that suits the types, the matcher finds the least solution above it. -/
lemma matchLiterals_findsLeast (action : String) (hlength : ls.length = ps.length)
    (htypes : TypedByName ps) (hls : ∀ l ∈ ls, l.WellTyped) (hσ₀ : ∀ p ∈ ps, σ₀.SuitsTypes p) :
    FindsLeast (σ₀.matchLiterals ps ls) {θ | σ₀ ≤ θ ∧ θ.Solves action ps ls} := by
  have hisLeast : ∀ σ, σ₀.matchLiterals ps ls = .ok σ →
      IsLeast {θ | σ₀ ≤ θ ∧ θ.Solves action ps ls} σ := fun σ hσ =>
    ⟨⟨(Substitution.grown_of_matchLiterals hlength hσ).keeps,
      Substitution.solves_of_matchLiterals hlength htypes hls hσ₀ hσ⟩,
      fun θ hθ => Substitution.le_of_solves hls hσ hθ.1 hθ.2⟩
  refine ⟨⟨?_, ?_⟩, hisLeast⟩
  · rintro ⟨σ, hσ⟩
    exact (hisLeast σ hσ).nonempty
  · rintro ⟨θ, hσ₀θ, hθ⟩
    have hwithin : σ₀.Within θ := fun x o hx => ⟨o, hσ₀θ x o hx, rfl⟩
    obtain ⟨σ, hσ, -⟩ := hθ.fits.exists_matchLiterals hwithin
    exact ⟨σ, hσ⟩

lemma unifyAll_findsLeast (action : String) (hlength : ls.length = ps.length)
    (htypes : TypedByName ps) (hls : ∀ l ∈ ls, l.WellTyped) :
    FindsLeast (unifyAll ps ls) {θ | θ.Solves action ps ls} := by
  have hempty : ∀ p ∈ ps, Substitution.SuitsTypes ∅ p := by
    intro p _ v _ _ o ho
    simp at ho
  have h := matchLiterals_findsLeast action hlength htypes hls hempty
  simpa only [unifyAll, Substitution.empty_le, true_and] using h

lemma matchLiteral_findsLeast (action : String) (htypes : TypedByName [p]) (hl : l.WellTyped)
    (hσ₀ : σ₀.SuitsTypes p) :
    FindsLeast (σ₀.matchLiteral p l) {θ | σ₀ ≤ θ ∧ θ.Instantiates action p l} := by
  have hsingle : σ₀.matchLiterals [p] [l] = σ₀.matchLiteral p l := by
    rw [Substitution.matchLiterals]
    cases σ₀.matchLiteral p l <;> rfl
  have h : FindsLeast (σ₀.matchLiterals [p] [l]) {θ | σ₀ ≤ θ ∧ θ.Solves action [p] [l]} :=
    matchLiterals_findsLeast action rfl htypes (by simpa using hl) (by simpa using hσ₀)
  simpa [hsingle, Substitution.Solves] using h

/-- A solution does not see the order of patterns and literals. -/
lemma solves_iff_of_perm {ps' ls' : List Literal} (hlength : ls.length = ps.length)
    (hlength' : ls'.length = ps'.length) (hperm : (ps'.zip ls').Perm (ps.zip ls)) :
    θ.Solves action ps' ls' ↔ θ.Solves action ps ls := by
  simp only [Substitution.Solves, List.forall₂_iff_zip, hlength, hlength', true_and,
    hperm.mem_iff]

/-- **Matching finds the least solution.**  If free variables of one name have one type and the
literals are well typed, a match of patterns and as many literals succeeds just if it has a
solution; it gives the least one, which binds just the names of the free variables of the patterns,
and it gives the same in whatever order the pairs of a pattern and its literal are gone through.
The match of one pattern, from bindings that suit the types of its variables, gives the least
solution that keeps them. -/
theorem matching_finds_least (action : String) :
    (∀ ps ls : List Literal, ls.length = ps.length → TypedByName ps → (∀ l ∈ ls, l.WellTyped) →
      FindsLeast (unifyAll ps ls) {θ | θ.Solves action ps ls} ∧
      (∀ σ, unifyAll ps ls = .ok σ → ∀ x, (∃ o, σ.get? x = some o) ↔
        ∃ p ∈ ps, ∃ v ∈ p.arguments, v.value = none ∧ v.name = x) ∧
      ∀ ps' ls' : List Literal, ls'.length = ps'.length → (ps'.zip ls').Perm (ps.zip ls) →
        ∀ σ, unifyAll ps' ls' = .ok σ ↔ unifyAll ps ls = .ok σ) ∧
    ∀ (σ₀ : Substitution) (p l : Literal), TypedByName [p] → l.WellTyped → σ₀.SuitsTypes p →
      FindsLeast (σ₀.matchLiteral p l) {θ | σ₀ ≤ θ ∧ θ.Instantiates action p l} := by
  refine ⟨fun ps ls hlength htypes hls => ?_, fun σ₀ p l => matchLiteral_findsLeast action⟩
  have hleast := unifyAll_findsLeast action hlength htypes hls
  refine ⟨hleast, fun σ hσ => exists_get?_iff hlength hσ, fun ps' ls' hlength' hperm σ => ?_⟩
  -- The same patterns and literals in another order, and they have the same solutions.
  have hps : ps'.Perm ps := by
    have h := hperm.map Prod.fst
    rwa [List.map_fst_zip hlength'.ge, List.map_fst_zip hlength.ge] at h
  have hls' : ls'.Perm ls := by
    have h := hperm.map Prod.snd
    rwa [List.map_snd_zip hlength'.le, List.map_snd_zip hlength.le] at h
  have htypes' : TypedByName ps' := fun p hp q hq =>
    htypes p (hps.subset hp) q (hps.subset hq)
  have hleast' := unifyAll_findsLeast action hlength' htypes' fun l hl => hls l (hls'.subset hl)
  simp only [hleast.eq_ok_iff, hleast'.eq_ok_iff, solves_iff_of_perm hlength hlength' hperm]

end Matching

/-- The first step on a line has a least solution, whichever of its preconditions is matched first;
and a walker who is known to be at the first place can only step to the second. -/
theorem walk_matching_finds_least :
    let facts := [Walk.here (Walk.place "a"), Walk.link (Walk.place "a") (Walk.place "b")]
    let from_a := Substitution.ofList [("?from", ⟨"a", "place"⟩)]
    let to_b := Substitution.ofList [("?from", ⟨"a", "place"⟩), ("?to", ⟨"b", "place"⟩)]
    let link := Walk.link (Walk.free "?from") (Walk.free "?to")
    TypedByName Walk.step.preconditions ∧ (∀ l ∈ facts, l.WellTyped) ∧ from_a.SuitsTypes link ∧
    IsLeast {θ : Substitution | θ.Solves "step" Walk.step.preconditions facts} to_b ∧
    unifyAll Walk.step.preconditions.reverse facts.reverse = .ok to_b ∧
    IsLeast {θ | from_a ≤ θ ∧ θ.Instantiates "step" link facts[1]} to_b := by
  intro facts from_a to_b link
  have htypes : TypedByName Walk.step.preconditions := by decide
  have hlink : TypedByName [link] := by decide
  have hfacts : ∀ l ∈ facts, l.WellTyped := by
    simp [facts, Walk.here, Walk.link, Walk.place, Walk.free, Variable.fill, Literal.WellTyped,
      Variable.WellTyped, Variable.free]
  have hfrom : from_a.SuitsTypes link := by decide
  obtain ⟨hall, hone⟩ := matching_finds_least "step"
  obtain ⟨hleast, -, horder⟩ := hall Walk.step.preconditions facts rfl htypes hfacts
  have hreverse : (Walk.step.preconditions.reverse.zip facts.reverse).Perm
      (Walk.step.preconditions.zip facts) := by decide
  have hswap : unifyAll Walk.step.preconditions.reverse facts.reverse = .ok to_b :=
    (horder Walk.step.preconditions.reverse facts.reverse rfl hreverse to_b).mpr rfl
  refine ⟨htypes, hfacts, hfrom, hleast.isLeast _ rfl, hswap, ?_⟩
  exact (hone from_a link facts[1] hlink (hfacts _ (by simp [facts])) hfrom).isLeast _ rfl

end ClassicalPlanning
