/-
Matching sees what literals say.

A pattern is matched against what a literal says: two literals that say the same are
matched by the same patterns, and the substitutions bind the same names to objects of one
name.  Effects under such substitutions say the same again.

The main results are `matchLiterals_congr` for matching, `effects_congr` for effects and
`Action.Yields.congr` for what an action makes of the facts that fill its preconditions.
-/
import ClassicalPlanning.Proofs.Outcome
import ClassicalPlanning.Proofs.State.Content

namespace ClassicalPlanning

/-! ## What matching does -/

namespace Substitution

variable {σ τ : Substitution} {p v : Variable}

/-- An argument is matched by a constant or a bound variable of its name, or it is bound to
a variable that is not bound yet. -/
lemma matchArgument_eq_ok_iff :
    σ.matchArgument p v = .ok τ ↔ ∃ found, v.value = some found ∧ p.type = v.type ∧
      ((∃ bound, p.value.or (σ.get? p.name) = some bound ∧ bound.name = found.name ∧ τ = σ) ∨
        (p.value.or (σ.get? p.name) = none ∧ τ = σ.insert p.name found)) := by
  unfold matchArgument
  cases hv : v.value with
  | none => simp
  | some found =>
    by_cases htype : p.type = v.type
    · cases hbound : p.value.or (σ.get? p.name) with
      | none => simp [htype, eq_comm]
      | some bound => by_cases hname : bound.name = found.name <;> simp [htype, hname, eq_comm]
    · simp [htype]

lemma matchArguments_cons_eq_ok_iff {ps vs : List Variable} :
    σ.matchArguments (p :: ps) (v :: vs) = .ok τ ↔
      ∃ ρ, σ.matchArgument p v = .ok ρ ∧ ρ.matchArguments ps vs = .ok τ := by
  rw [matchArguments, bind_eq_ok_iff]

lemma matchLiteral_eq_ok_iff {p l : Literal} :
    σ.matchLiteral p l = .ok τ ↔ p.head = l.head ∧ p.arguments.length = l.arguments.length ∧
      σ.matchArguments p.arguments l.arguments = .ok τ := by
  unfold matchLiteral
  split
  · simp_all
  · split <;> simp_all

lemma matchLiterals_cons_eq_ok_iff {p l : Literal} {ps ls : List Literal} :
    σ.matchLiterals (p :: ps) (l :: ls) = .ok τ ↔
      ∃ ρ, σ.matchLiteral p l = .ok ρ ∧ ρ.matchLiterals ps ls = .ok τ := by
  rw [matchLiterals, bind_eq_ok_iff]

/-- Patterns and the literals that they match have the same heads. -/
lemma heads_eq_of_matchLiterals {ps ls : List Literal} (hlength : ls.length = ps.length)
    (h : σ.matchLiterals ps ls = .ok τ) : ls.map Literal.head = ps.map Literal.head := by
  induction ps generalizing σ ls with
  | nil => simpa using hlength
  | cons p ps ih =>
    obtain _ | ⟨l, ls⟩ := ls
    · simp at hlength
    · obtain ⟨ρ, hl, hls⟩ := matchLiterals_cons_eq_ok_iff.mp h
      rw [List.map_cons, List.map_cons, (matchLiteral_eq_ok_iff.mp hl).1,
        ih (by simpa using hlength) hls]

end Substitution

/-! ## Matching like literals -/

/-- Two substitutions bind the same names, to objects of one name. -/
def Substitution.SameNames (σ τ : Substitution) : Prop :=
  ∀ x, (σ.get? x).map Object.name = (τ.get? x).map Object.name

namespace Substitution

variable {σ σ' τ : Substitution}

/-- What is bound at a name on one side is bound on the other side too. -/
lemma SameNames.exists_of_get? (h : SameNames σ τ) {x : String} {o : Object}
    (hx : σ.get? x = some o) : ∃ o', τ.get? x = some o' ∧ o'.name = o.name := by
  have hname := h x
  rw [hx, Option.map_some, eq_comm, Option.map_eq_some_iff] at hname
  exact hname

lemma SameNames.get?_eq_none (h : SameNames σ τ) {x : String} (hx : σ.get? x = none) :
    τ.get? x = none := by
  have hname := h x
  rwa [hx, Option.map_none, eq_comm, Option.map_eq_none_iff] at hname

lemma SameNames.insert (h : SameNames σ τ) (x : String) {o o' : Object} (ho : o.name = o'.name) :
    SameNames (σ.insert x o) (τ.insert x o') := by
  intro y
  rw [get?_insert, get?_insert]
  split
  · simp [ho]
  · exact h y

end Substitution

/-- Variables that stand for the same thing are of one type, and if one of them is bound,
the other is bound to an object of the same name. -/
lemma Variable.exists_of_referent_eq {v w : Variable} (h : v.referent = w.referent) {o : Object}
    (hv : v.value = some o) : ∃ o', w.value = some o' ∧ o'.name = o.name ∧ w.type = v.type := by
  unfold Variable.referent at h
  rw [hv] at h
  cases hw : w.value with
  | none => simp [hw] at h
  | some o' =>
    rw [hw, Referent.constant.injEq] at h
    exact ⟨o', rfl, h.1.symm, h.2.symm⟩

/-- A literal has a head and referents of its arguments. -/
lemma Literal.proposition_eq_iff {l m : Literal} :
    l.proposition = m.proposition ↔
      l.head = m.head ∧ l.arguments.map Variable.referent = m.arguments.map Variable.referent := by
  simp [Literal.proposition]

namespace Substitution

variable {σ σ' τ : Substitution}

lemma matchArgument_congr {p v w : Variable} (hσ : SameNames σ σ')
    (hvw : v.referent = w.referent) (h : σ.matchArgument p v = .ok τ) :
    ∃ τ', σ'.matchArgument p w = .ok τ' ∧ SameNames τ τ' := by
  obtain ⟨o, hv, htype, hcases⟩ := matchArgument_eq_ok_iff.mp h
  obtain ⟨o', hw, hname, htype'⟩ := Variable.exists_of_referent_eq hvw hv
  have htypes : p.type = w.type := htype.trans htype'.symm
  rcases hcases with ⟨bound, hbound, hagree, rfl⟩ | ⟨hfree, rfl⟩
  -- The name is bound already, by a constant or by the substitution.
  · refine ⟨σ', matchArgument_eq_ok_iff.mpr ⟨o', hw, htypes, Or.inl ?_⟩, hσ⟩
    cases hp : p.value with
    | some constant =>
      rw [hp, Option.some_or] at hbound
      obtain rfl : constant = bound := by simpa using hbound
      exact ⟨constant, by simp, hagree.trans hname.symm, rfl⟩
    | none =>
      rw [hp, Option.none_or] at hbound
      obtain ⟨bound', hbound', hboundname⟩ := hσ.exists_of_get? hbound
      exact ⟨bound', by simpa using hbound', (hboundname.trans hagree).trans hname.symm, rfl⟩
  -- The name is bound now.
  · rw [Option.or_eq_none_iff] at hfree
    have hfree' : p.value.or (σ'.get? p.name) = none := by
      rw [Option.or_eq_none_iff]
      exact ⟨hfree.1, hσ.get?_eq_none hfree.2⟩
    exact ⟨σ'.insert p.name o', matchArgument_eq_ok_iff.mpr ⟨o', hw, htypes, Or.inr ⟨hfree', rfl⟩⟩,
      hσ.insert p.name hname.symm⟩

lemma matchArguments_congr {ps vs ws : List Variable} (hσ : SameNames σ σ')
    (hvw : vs.map Variable.referent = ws.map Variable.referent)
    (h : σ.matchArguments ps vs = .ok τ) :
    ∃ τ', σ'.matchArguments ps ws = .ok τ' ∧ SameNames τ τ' := by
  induction ps generalizing σ σ' vs ws with
  | nil =>
    obtain rfl : σ = τ := by simpa [matchArguments] using h
    exact ⟨σ', by simp [matchArguments], hσ⟩
  | cons p ps ih =>
    obtain _ | ⟨v, vs⟩ := vs
    · obtain rfl : ws = [] := by simpa using hvw.symm
      obtain rfl : σ = τ := by simpa [matchArguments] using h
      exact ⟨σ', by simp [matchArguments], hσ⟩
    · obtain ⟨w, ws, rfl, hw, hws⟩ := List.map_eq_cons_iff.mp hvw.symm
      obtain ⟨ρ, hρ, hrest⟩ := matchArguments_cons_eq_ok_iff.mp h
      obtain ⟨ρ', hρ', hsame⟩ := matchArgument_congr hσ hw.symm hρ
      obtain ⟨τ', hτ', hsame'⟩ := ih hsame hws.symm hrest
      exact ⟨τ', matchArguments_cons_eq_ok_iff.mpr ⟨ρ', hρ', hτ'⟩, hsame'⟩

lemma matchLiteral_congr {p l m : Literal} (hσ : SameNames σ σ')
    (hlm : l.proposition = m.proposition) (h : σ.matchLiteral p l = .ok τ) :
    ∃ τ', σ'.matchLiteral p m = .ok τ' ∧ SameNames τ τ' := by
  obtain ⟨hhead, hlength, harguments⟩ := matchLiteral_eq_ok_iff.mp h
  obtain ⟨hheads, hreferents⟩ := Literal.proposition_eq_iff.mp hlm
  have hlengths : l.arguments.length = m.arguments.length := by
    simpa using congrArg List.length hreferents
  obtain ⟨τ', hτ', hsame⟩ := matchArguments_congr hσ hreferents harguments
  exact ⟨τ', matchLiteral_eq_ok_iff.mpr ⟨hhead.trans hheads, hlength.trans hlengths, hτ'⟩, hsame⟩

/-- Patterns that match literals match all literals that say the same. -/
lemma matchLiterals_congr {ps ls ms : List Literal} (hσ : SameNames σ σ')
    (hlm : ls.map Literal.proposition = ms.map Literal.proposition)
    (h : σ.matchLiterals ps ls = .ok τ) :
    ∃ τ', σ'.matchLiterals ps ms = .ok τ' ∧ SameNames τ τ' := by
  induction ps generalizing σ σ' ls ms with
  | nil =>
    obtain rfl : σ = τ := by simpa [matchLiterals] using h
    exact ⟨σ', by simp [matchLiterals], hσ⟩
  | cons p ps ih =>
    obtain _ | ⟨l, ls⟩ := ls
    · obtain rfl : ms = [] := by simpa using hlm.symm
      obtain rfl : σ = τ := by simpa [matchLiterals] using h
      exact ⟨σ', by simp [matchLiterals], hσ⟩
    · obtain ⟨m, ms, rfl, hm, hms⟩ := List.map_eq_cons_iff.mp hlm.symm
      obtain ⟨ρ, hρ, hrest⟩ := matchLiterals_cons_eq_ok_iff.mp h
      obtain ⟨ρ', hρ', hsame⟩ := matchLiteral_congr hσ hm.symm hρ
      obtain ⟨τ', hτ', hsame'⟩ := ih hsame hms.symm hrest
      exact ⟨τ', matchLiterals_cons_eq_ok_iff.mpr ⟨ρ', hρ', hτ'⟩, hsame'⟩

/-! ## Effects under like substitutions -/

lemma applyVariable_congr {action : String} {v w w' : Variable} (hσ : SameNames σ σ')
    (hw : σ.applyVariable action v = .ok w) (hw' : σ'.applyVariable action v = .ok w') :
    w.referent = w'.referent := by
  unfold applyVariable at hw hw'
  split at hw
  next hbound =>
    rw [if_pos hbound] at hw'
    rw [← Except.ok.inj hw, ← Except.ok.inj hw']
  next hfree =>
    rw [if_neg hfree] at hw'
    cases hget : σ.get? v.name with
    | none => simp [hget] at hw
    | some o =>
      obtain ⟨o', hget', hname⟩ := hσ.exists_of_get? hget
      simp only [hget, hget', Variable.bind_eq_ok_iff] at hw hw'
      rw [← hw.2, ← hw'.2]
      simp [Variable.fill, Variable.referent, hname]

/-- A bound variable stays as it is, and a free one takes the value of its name. -/
lemma applyVariable_eq_ok_iff {action : String} {v w : Variable} :
    σ.applyVariable action v = .ok w ↔ (v.isBound ∧ v = w) ∨
      (v.value = none ∧ ∃ o, σ.get? v.name = some o ∧ o.type = v.type ∧ v.fill o = w) := by
  unfold applyVariable Variable.isBound
  cases hvalue : v.value with
  | some constant => simp
  | none => cases hget : σ.get? v.name <;> simp [Variable.bind_eq_ok_iff]

lemma applyLiteral_eq_ok_iff {action : String} {e l : Literal} :
    σ.applyLiteral action e = .ok l ↔
      ∃ arguments, e.arguments.mapM (σ.applyVariable action) = .ok arguments ∧
        l = { e with arguments } := by
  simp only [applyLiteral, bind_eq_ok_iff, pure, Except.pure, Except.ok.injEq]
  simp only [eq_comm]

lemma applyLiteral_congr {action : String} {e l l' : Literal} (hσ : SameNames σ σ')
    (hl : σ.applyLiteral action e = .ok l) (hl' : σ'.applyLiteral action e = .ok l') :
    l.proposition = l'.proposition := by
  obtain ⟨arguments, harguments, rfl⟩ := applyLiteral_eq_ok_iff.mp hl
  obtain ⟨arguments', harguments', rfl⟩ := applyLiteral_eq_ok_iff.mp hl'
  refine Literal.proposition_eq_iff.mpr ⟨rfl, ?_⟩
  exact map_eq_of_mapM_eq_ok (fun _ _ _ => applyVariable_congr hσ) harguments harguments'

/-- Like substitutions give effects that say the same. -/
lemma effects_congr {action : String} {effects es es' : List Literal} (hσ : SameNames σ σ')
    (hes : effects.mapM (σ.applyLiteral action) = .ok es)
    (hes' : effects.mapM (σ'.applyLiteral action) = .ok es') :
    es.map Literal.proposition = es'.map Literal.proposition :=
  map_eq_of_mapM_eq_ok (fun _ _ _ => applyLiteral_congr hσ) hes hes'

end Substitution

/-! ## What an action yields -/

/-- The facts fill the preconditions of the action, in their order and under one
substitution, and then the action has these effects. -/
def Action.Yields (a : Action) (ms effects : List Literal) : Prop :=
  ms.length = a.preconditions.length ∧ ∃ σ, unifyAll a.preconditions ms = .ok σ ∧
    a.effects.mapM (σ.applyLiteral a.name) = .ok effects

section Yields

variable {a : Action} {ms ms' effects effects' : List Literal}

lemma Action.effectsFor_eq_ok_iff {g : Grounding} :
    a.effectsFor g = .ok effects ↔ ∃ σ, unifyAll a.preconditions g.matched = .ok σ ∧
      a.effects.mapM (σ.applyLiteral a.name) = .ok effects := by
  unfold Action.effectsFor
  split <;> simp [*]

lemma Action.yields_of_effectsFor {g : Grounding}
    (hlength : g.matched.length = a.preconditions.length) (h : a.effectsFor g = .ok effects) :
    a.Yields g.matched effects :=
  ⟨hlength, Action.effectsFor_eq_ok_iff.mp h⟩

/-- Facts that say the same place by place yield effects that say the same place by
place. -/
lemma Action.Yields.congr (h : a.Yields ms effects) (h' : a.Yields ms' effects')
    (hms : ms.map Literal.proposition = ms'.map Literal.proposition) :
    effects.map Literal.proposition = effects'.map Literal.proposition := by
  obtain ⟨-, σ, hσ, heffects⟩ := h
  obtain ⟨-, σ', hσ', heffects'⟩ := h'
  obtain ⟨τ, hτ, hsame⟩ := Substitution.matchLiterals_congr (fun _ => rfl) hms hσ
  obtain rfl : τ = σ' := Except.ok.inj (hτ.symm.trans hσ')
  exact Substitution.effects_congr hsame heffects heffects'

/-- The facts have the heads of the preconditions, in their order. -/
lemma Action.Yields.heads_eq (h : a.Yields ms effects) :
    ms.map Literal.head = a.preconditions.map Literal.head := by
  obtain ⟨hlength, σ, hσ, -⟩ := h
  exact Substitution.heads_eq_of_matchLiterals hlength hσ

end Yields

end ClassicalPlanning
