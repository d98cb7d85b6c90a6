/-
Texts that spell a value.

The text of a value leaves open how many blanks stand between its parts.  `Spells` describes such
texts, without regard to who writes them: both the compact and the pretty form of a value spell
it (`spells_compact`, `spells_pretty`), and the reader gives the value back from every text that
spells it (`ofString?_of_spells`), since a text is at least as long as its parts are nested.

Numbers are natural numbers here, and no text holds half of a surrogate pair.  `IsPlain` says
that this is so of a value; the two results about the written forms are
`ofString?_toCompactString` and `ofString?_toPrettyString`.
-/
import ClassicalPlanning.Proofs.Json.Token

namespace ClassicalPlanning.Json

/-- The characters may stand between the parts of a text. -/
def Gap (cs : List Char) : Prop :=
  ∀ c ∈ cs, isBlank c

mutual

/-- The text spells the value. -/
inductive Spells : List Char → Json → Prop
  | null : Spells ['n', 'u', 'l', 'l'] .null
  | yes : Spells ['t', 'r', 'u', 'e'] (.bool true)
  | no : Spells ['f', 'a', 'l', 's', 'e'] (.bool false)
  | natural (n : Nat) : Spells (Nat.toDigits 10 n) (.ofNat n)
  | string (s : String) : Spells (quote s) (.string s)
  | noItems {gap : List Char} (hgap : Gap gap) : Spells ('[' :: (gap ++ [']'])) (.array [])
  | items {gap cs ds : List Char} {item : Json} {items : List Json} (hgap : Gap gap)
      (hitem : Spells cs item) (hitems : SpellsItems ds items) :
      Spells ('[' :: (gap ++ (cs ++ ds))) (.array (item :: items))
  | noMembers {gap : List Char} (hgap : Gap gap) : Spells ('{' :: (gap ++ ['}'])) (.object [])
  | members {gap cs ds : List Char} {key : String} {value : Json} {members : List (String × Json)}
      (hgap : Gap gap) (hmember : SpellsMember cs key value) (hmembers : SpellsMembers ds members) :
      Spells ('{' :: (gap ++ (cs ++ ds))) (.object ((key, value) :: members))

/-- The text spells the items after the first, and the end of the array. -/
inductive SpellsItems : List Char → List Json → Prop
  | nil {gap : List Char} (hgap : Gap gap) : SpellsItems (gap ++ [']']) []
  | cons {gap gap' cs ds : List Char} {item : Json} {items : List Json} (hgap : Gap gap)
      (hgap' : Gap gap') (hitem : Spells cs item) (hitems : SpellsItems ds items) :
      SpellsItems (gap ++ ',' :: (gap' ++ (cs ++ ds))) (item :: items)

/-- The text spells the key and the value of a member. -/
inductive SpellsMember : List Char → String → Json → Prop
  | mk (key : String) {gap gap' cs : List Char} {value : Json} (hgap : Gap gap)
      (hgap' : Gap gap') (hvalue : Spells cs value) :
      SpellsMember (quote key ++ (gap ++ ':' :: (gap' ++ cs))) key value

/-- The text spells the members after the first, and the end of the object. -/
inductive SpellsMembers : List Char → List (String × Json) → Prop
  | nil {gap : List Char} (hgap : Gap gap) : SpellsMembers (gap ++ ['}']) []
  | cons {gap gap' cs ds : List Char} {key : String} {value : Json}
      {members : List (String × Json)} (hgap : Gap gap) (hgap' : Gap gap')
      (hmember : SpellsMember cs key value) (hmembers : SpellsMembers ds members) :
      SpellsMembers (gap ++ ',' :: (gap' ++ (cs ++ ds))) ((key, value) :: members)

end

/-! ## Reading texts that spell a value -/

variable {gap cs rest : List Char} {c : Char} {j value : Json} {key : String} {fuel : Nat}

lemma skipBlanks_append (hgap : Gap gap) (cs : List Char) :
    skipBlanks (gap ++ cs) = skipBlanks cs :=
  List.dropWhile_append_of_pos hgap

lemma skipBlanks_cons (hc : isBlank c = false) (cs : List Char) :
    skipBlanks (c :: cs) = c :: cs := by
  rw [skipBlanks, List.dropWhile_cons_of_neg (by simp [hc])]

lemma readValue_append (hgap : Gap gap) (cs : List Char) :
    readValue fuel (gap ++ cs) = readValue fuel cs := by
  cases fuel with
  | zero => simp [readValue]
  | succ fuel => rw [readValue, readValue, skipBlanks_append hgap]

lemma readMember_append (hgap : Gap gap) (cs : List Char) :
    readMember fuel (gap ++ cs) = readMember fuel cs := by
  cases fuel with
  | zero => simp [readMember]
  | succ fuel => rw [readMember, readMember, skipBlanks_append hgap]

lemma isBlank_eq_false_of_isDigit (h : c.isDigit) : isBlank c = false := by
  cases hblank : isBlank c with
  | false => rfl
  | true =>
    simp only [isBlank, Bool.or_eq_true, beq_iff_eq] at hblank
    rcases hblank with ((rfl | rfl) | rfl) | rfl <;> simp at h

/-- A text that spells a value begins with a character of its own, which does not end an
array. -/
lemma Spells.exists_cons (h : Spells cs j) :
    ∃ c tail, cs = c :: tail ∧ isBlank c = false ∧ c ≠ ']' := by
  cases h with
  | natural n =>
    obtain ⟨d, ds, hcons, hdigit⟩ := exists_toDigits_eq_cons n
    refine ⟨d, ds, hcons, isBlank_eq_false_of_isDigit hdigit, ?_⟩
    rintro rfl
    simp at hdigit
  | string s => exact ⟨'"', _, rfl, rfl, by decide⟩
  | null => exact ⟨'n', _, rfl, rfl, by decide⟩
  | yes => exact ⟨'t', _, rfl, rfl, by decide⟩
  | no => exact ⟨'f', _, rfl, rfl, by decide⟩
  | noItems | items => exact ⟨'[', _, rfl, rfl, by decide⟩
  | noMembers | members => exact ⟨'{', _, rfl, rfl, by decide⟩

lemma endsNumber_cons (hdigit : c.isDigit = false) (hpart : c ∉ ['.', 'e', 'E']) :
    EndsNumber (c :: rest) := by
  rintro d hd
  obtain rfl : c = d := by simpa using hd
  simpa [hdigit] using hpart

lemma endsNumber_of_gap (hgap : Gap gap) (h : EndsNumber rest) : EndsNumber (gap ++ rest) := by
  cases gap with
  | nil => exact h
  | cons c gap =>
    have hblank : isBlank c := hgap c List.mem_cons_self
    simp only [isBlank, Bool.or_eq_true, beq_iff_eq] at hblank
    rcases hblank with ((rfl | rfl) | rfl) | rfl <;> exact endsNumber_cons rfl (by decide)

/-- What follows the first item ends a number. -/
lemma SpellsItems.endsNumber {items : List Json} (h : SpellsItems cs items) (rest : List Char) :
    EndsNumber (cs ++ rest) := by
  cases h with
  | nil hgap =>
    rw [List.append_assoc]
    exact endsNumber_of_gap hgap (endsNumber_cons rfl (by decide))
  | cons hgap _ _ _ =>
    rw [List.append_assoc]
    exact endsNumber_of_gap hgap (endsNumber_cons rfl (by decide))

/-- What follows the first member ends a number. -/
lemma SpellsMembers.endsNumber {members : List (String × Json)} (h : SpellsMembers cs members)
    (rest : List Char) : EndsNumber (cs ++ rest) := by
  cases h with
  | nil hgap =>
    rw [List.append_assoc]
    exact endsNumber_of_gap hgap (endsNumber_cons rfl (by decide))
  | cons hgap _ _ _ =>
    rw [List.append_assoc]
    exact endsNumber_of_gap hgap (endsNumber_cons rfl (by decide))

/-- What the reader makes of texts that are no longer than its fuel. -/
structure Reads (fuel : Nat) : Prop where
  value : ∀ {cs j rest}, Spells cs j → cs.length ≤ fuel → EndsNumber rest →
    readValue fuel (cs ++ rest) = some (j, rest)
  items : ∀ {cs items rest}, SpellsItems cs items → cs.length ≤ fuel →
    readItems fuel (cs ++ rest) = some (items, rest)
  member : ∀ {cs key value rest}, SpellsMember cs key value → cs.length ≤ fuel → EndsNumber rest →
    readMember fuel (cs ++ rest) = some ((some key, value), rest)
  members : ∀ {cs members rest}, SpellsMembers cs members → cs.length ≤ fuel →
    readMembers fuel (cs ++ rest) = some (members.map fun m => (some m.1, m.2), rest)

lemma ofMembers_map (members : List (String × Json)) :
    ofMembers (members.map fun m => (some m.1, m.2)) = .object members := by
  have hmembers : (members.map fun m => (some m.1, m.2)).mapM
      (fun m : Option String × Json => m.1.map (·, m.2)) = some members := by
    induction members with
    | nil => rfl
    | cons member members ih => simp [ih]
  unfold ofMembers
  split
  next read heq => exact congrArg object (Option.some.inj (heq.symm.trans hmembers))
  next heq => exact absurd (heq.symm.trans hmembers) (by simp)

/-! ### Single steps of the reader -/

lemma readValue_digit (hc : c.isDigit) (cs : List Char) : readValue (fuel + 1) (c :: cs) =
    (readNumber (c :: cs)).map fun (lexeme, rest) => (.number lexeme, rest) := by
  rw [readValue, skipBlanks_cons (isBlank_eq_false_of_isDigit hc)]
  -- No other value begins with a digit.
  split
  iterate 6
    next heq =>
      rw [(List.cons.inj heq).1] at hc
      simp at hc
  next => cases readNumber (c :: cs) <;> rfl

lemma readValue_quote (s : String) (rest : List Char) :
    readValue (fuel + 1) (quote s ++ rest) = some (.string s, rest) := by
  rw [quote_append, readValue, skipBlanks_cons rfl]
  simp [readString_flatMap]

lemma readValue_noItems (hgap : Gap gap) (rest : List Char) :
    readValue (fuel + 1) ('[' :: (gap ++ ']' :: rest)) = some (.array [], rest) := by
  rw [readValue, skipBlanks_cons rfl]
  simp only
  rw [skipBlanks_append hgap, skipBlanks_cons rfl]
  rfl

lemma readValue_items {item : Json} {items : List Json} {rest' : List Char}
    (hcs : ∀ tail, skipBlanks cs ≠ ']' :: tail)
    (hitem : readValue fuel (skipBlanks cs) = some (item, rest))
    (hitems : readItems fuel rest = some (items, rest')) :
    readValue (fuel + 1) ('[' :: cs) = some (.array (item :: items), rest') := by
  rw [readValue, skipBlanks_cons rfl]
  simp only
  simp [hitem, hitems]

lemma readValue_noMembers (hgap : Gap gap) (rest : List Char) :
    readValue (fuel + 1) ('{' :: (gap ++ '}' :: rest)) = some (.object [], rest) := by
  rw [readValue, skipBlanks_cons rfl]
  simp only
  rw [skipBlanks_append hgap, skipBlanks_cons rfl]
  rfl

lemma readValue_members {member : Option String × Json} {members : List (Option String × Json)}
    {rest' : List Char} (hcs : ∀ tail, skipBlanks cs ≠ '}' :: tail)
    (hmember : readMember fuel (skipBlanks cs) = some (member, rest))
    (hmembers : readMembers fuel rest = some (members, rest')) :
    readValue (fuel + 1) ('{' :: cs) = some (ofMembers (member :: members), rest') := by
  rw [readValue, skipBlanks_cons rfl]
  simp only
  simp [hmember, hmembers]

lemma readItems_nil (hgap : Gap gap) (rest : List Char) :
    readItems (fuel + 1) (gap ++ ']' :: rest) = some ([], rest) := by
  rw [readItems, skipBlanks_append hgap, skipBlanks_cons rfl]
  rfl

lemma readItems_cons {item : Json} {items : List Json} {rest' : List Char} (hgap : Gap gap)
    (hitem : readValue fuel cs = some (item, rest))
    (hitems : readItems fuel rest = some (items, rest')) :
    readItems (fuel + 1) (gap ++ ',' :: cs) = some (item :: items, rest') := by
  rw [readItems, skipBlanks_append hgap, skipBlanks_cons rfl]
  simp [hitem, hitems]

lemma readMember_quote (hgap : Gap gap) (hvalue : readValue fuel cs = some (value, rest)) :
    readMember (fuel + 1) (quote key ++ (gap ++ ':' :: cs)) = some ((some key, value), rest) := by
  rw [quote_append, readMember, skipBlanks_cons rfl]
  simp [readString_flatMap, skipBlanks_append hgap, skipBlanks_cons, isBlank, hvalue]

lemma readMembers_nil (hgap : Gap gap) (rest : List Char) :
    readMembers (fuel + 1) (gap ++ '}' :: rest) = some ([], rest) := by
  rw [readMembers, skipBlanks_append hgap, skipBlanks_cons rfl]
  rfl

lemma readMembers_cons {member : Option String × Json} {members : List (Option String × Json)}
    {rest' : List Char} (hgap : Gap gap) (hmember : readMember fuel cs = some (member, rest))
    (hmembers : readMembers fuel rest = some (members, rest')) :
    readMembers (fuel + 1) (gap ++ ',' :: cs) = some (member :: members, rest') := by
  rw [readMembers, skipBlanks_append hgap, skipBlanks_cons rfl]
  simp [hmember, hmembers]

/-! ### All steps of the reader -/

/-- What stands in front of an item is skipped, and the item does not end the array. -/
lemma Spells.skipBlanks_append (h : Spells cs j) (hgap : Gap gap) (tail : List Char) :
    skipBlanks (gap ++ (cs ++ tail)) = cs ++ tail ∧ ∀ ds, cs ++ tail ≠ ']' :: ds := by
  obtain ⟨c, cs, rfl, hblank, hbracket⟩ := h.exists_cons
  refine ⟨by rw [Json.skipBlanks_append hgap, List.cons_append, skipBlanks_cons hblank], ?_⟩
  intro ds heq
  exact hbracket (List.cons.inj heq).1

/-- What stands in front of a member is skipped, and the member does not end the object. -/
lemma SpellsMember.skipBlanks_append (h : SpellsMember cs key value) (hgap : Gap gap)
    (tail : List Char) :
    skipBlanks (gap ++ (cs ++ tail)) = cs ++ tail ∧ ∀ ds, cs ++ tail ≠ '}' :: ds := by
  cases h
  rw [Json.skipBlanks_append hgap, List.append_assoc, quote_append, skipBlanks_cons rfl]
  exact ⟨rfl, by simp⟩

namespace Reads

variable {ds : List Char} {item : Json} {items : List Json} {members : List (String × Json)}

lemma array (ih : Reads fuel) (hgap : Gap gap) (hitem : Spells cs item)
    (hitems : SpellsItems ds items) (hcs : cs.length ≤ fuel) (hds : ds.length ≤ fuel) :
    readValue (fuel + 1) ('[' :: (gap ++ (cs ++ (ds ++ rest)))) =
      some (.array (item :: items), rest) := by
  obtain ⟨hskip, hbracket⟩ := hitem.skipBlanks_append hgap (ds ++ rest)
  have hread := ih.value hitem hcs (hitems.endsNumber rest)
  rw [← hskip] at hread
  exact readValue_items (by rwa [hskip]) hread (ih.items hitems hds)

lemma object (ih : Reads fuel) (hgap : Gap gap) (hmember : SpellsMember cs key value)
    (hmembers : SpellsMembers ds members) (hcs : cs.length ≤ fuel) (hds : ds.length ≤ fuel) :
    readValue (fuel + 1) ('{' :: (gap ++ (cs ++ (ds ++ rest)))) =
      some (.object ((key, value) :: members), rest) := by
  obtain ⟨hskip, hbrace⟩ := hmember.skipBlanks_append hgap (ds ++ rest)
  have hread := ih.member hmember hcs (hmembers.endsNumber rest)
  rw [← hskip] at hread
  rw [readValue_members (by rwa [hskip]) hread (ih.members hmembers hds)]
  exact congrArg (fun j => some (j, rest)) (ofMembers_map ((key, value) :: members))

lemma value_succ (ih : Reads fuel) (h : Spells cs j) (hlength : cs.length ≤ fuel + 1)
    (hrest : EndsNumber rest) : readValue (fuel + 1) (cs ++ rest) = some (j, rest) := by
  cases h with
  | null | yes | no =>
    rw [readValue, List.cons_append, skipBlanks_cons rfl]
    rfl
  | natural n =>
    obtain ⟨d, ds, hcons, hdigit⟩ := exists_toDigits_eq_cons n
    rw [hcons, List.cons_append, readValue_digit hdigit, ← List.cons_append, ← hcons,
      readNumber_toDigits n hrest]
    rfl
  | string s => exact readValue_quote s rest
  | noItems hgap => simpa using readValue_noItems hgap rest
  | items hgap hitem hitems =>
    simp only [List.length_cons, List.length_append] at hlength
    simpa using ih.array hgap hitem hitems (by omega) (by omega)
  | noMembers hgap => simpa using readValue_noMembers hgap rest
  | members hgap hmember hmembers =>
    simp only [List.length_cons, List.length_append] at hlength
    simpa using ih.object hgap hmember hmembers (by omega) (by omega)

lemma items_succ (ih : Reads fuel) (h : SpellsItems cs items) (hlength : cs.length ≤ fuel + 1) :
    readItems (fuel + 1) (cs ++ rest) = some (items, rest) := by
  cases h with
  | nil hgap => simpa using readItems_nil hgap rest
  | cons hgap hgap' hitem hitems =>
    simp only [List.length_cons, List.length_append] at hlength
    have hread := ih.value hitem (by omega) (hitems.endsNumber rest)
    rw [← readValue_append hgap'] at hread
    simpa using readItems_cons hgap hread (ih.items hitems (by omega))

lemma member_succ (ih : Reads fuel) (h : SpellsMember cs key value)
    (hlength : cs.length ≤ fuel + 1) (hrest : EndsNumber rest) :
    readMember (fuel + 1) (cs ++ rest) = some ((some key, value), rest) := by
  cases h with
  | mk _ hgap hgap' hvalue =>
    simp only [List.length_cons, List.length_append] at hlength
    have hread := ih.value hvalue (by omega) hrest
    rw [← readValue_append hgap'] at hread
    simpa using readMember_quote hgap hread

lemma members_succ (ih : Reads fuel) (h : SpellsMembers cs members)
    (hlength : cs.length ≤ fuel + 1) : readMembers (fuel + 1) (cs ++ rest) =
      some (members.map fun m => (some m.1, m.2), rest) := by
  cases h with
  | nil hgap => simpa using readMembers_nil hgap rest
  | cons hgap hgap' hmember hmembers =>
    simp only [List.length_cons, List.length_append] at hlength
    have hread := ih.member hmember (by omega) (hmembers.endsNumber rest)
    rw [← readMember_append hgap'] at hread
    simpa using readMembers_cons hgap hread (ih.members hmembers (by omega))

end Reads

lemma SpellsItems.ne_nil {items : List Json} (h : SpellsItems cs items) : cs ≠ [] := by
  cases h <;> simp

lemma SpellsMember.ne_nil (h : SpellsMember cs key value) : cs ≠ [] := by
  cases h
  simp

lemma SpellsMembers.ne_nil {members : List (String × Json)} (h : SpellsMembers cs members) :
    cs ≠ [] := by
  cases h <;> simp

/-- The reader gives back what is spelled, as long as its fuel is no less than the length of the
text. -/
theorem reads (fuel : Nat) : Reads fuel := by
  induction fuel with
  | zero =>
    -- No text is empty.
    constructor
    · intro cs j rest h hlength _
      obtain ⟨c, cs, rfl, -⟩ := h.exists_cons
      simp at hlength
    · intro cs items rest h hlength
      exact absurd (List.length_eq_zero_iff.mp (by omega)) h.ne_nil
    · intro cs key value rest h hlength _
      exact absurd (List.length_eq_zero_iff.mp (by omega)) h.ne_nil
    · intro cs members rest h hlength
      exact absurd (List.length_eq_zero_iff.mp (by omega)) h.ne_nil
  | succ fuel ih => exact ⟨ih.value_succ, ih.items_succ, ih.member_succ, ih.members_succ⟩

/-- A text that spells a value is read as this value. -/
theorem ofString?_of_spells (h : Spells cs j) : ofString? (String.ofList cs) = some j := by
  have hread : readValue (2 * cs.length + 2) (cs ++ []) = some (j, []) :=
    (reads _).value h (by omega) (by simp [EndsNumber])
  rw [List.append_nil] at hread
  simp [ofString?, hread, skipBlanks]

/-! ## The written forms of a value -/

mutual

/-- The numbers of the value are natural numbers, and no part of it holds half of a surrogate
pair. -/
def IsPlain : Json → Prop
  | .null => True
  | .bool _ => True
  | .number lexeme => ∃ n, lexeme = Nat.toDigits 10 n
  | .string _ => True
  | .array items => ArePlain items
  | .object members => HavePlain members
  | .unpaired => False

/-- Every item is plain. -/
def ArePlain : List Json → Prop
  | [] => True
  | item :: items => IsPlain item ∧ ArePlain items

/-- The value of every member is plain. -/
def HavePlain : List (String × Json) → Prop
  | [] => True
  | (_, value) :: members => IsPlain value ∧ HavePlain members

end

lemma gap_nil : Gap [] := by
  simp [Gap]

lemma gap_space : Gap [' '] := by
  simp [Gap, isBlank]

lemma gap_newLine (level : Nat) : Gap (newLine level) := by
  intro c hc
  rcases List.mem_cons.mp hc with rfl | hc
  · rfl
  · rw [List.eq_of_mem_replicate hc]
    rfl

mutual

/-- The compact form of a plain value spells it. -/
theorem spells_compact : ∀ {j : Json}, j.IsPlain → Spells j.compact j
  | .null, _ => .null
  | .bool true, _ => .yes
  | .bool false, _ => .no
  | .number _, ⟨n, hn⟩ => hn ▸ .natural n
  | .string s, _ => .string s
  | .array [], _ => .noItems gap_nil
  | .array (_ :: _), ⟨hitem, hitems⟩ =>
    .items gap_nil (spells_compact hitem) (spellsItems_compact hitems)
  | .object [], _ => .noMembers gap_nil
  | .object ((key, _) :: _), ⟨hvalue, hmembers⟩ => by
    have h := Spells.members gap_nil (.mk key gap_nil gap_nil (spells_compact hvalue))
      (spellsMembers_compact hmembers)
    simpa [compact] using h

lemma spellsItems_compact : ∀ {items : List Json}, ArePlain items →
    SpellsItems (compactItems items) items
  | [], _ => .nil gap_nil
  | _ :: _, ⟨hitem, hitems⟩ =>
    .cons gap_nil gap_nil (spells_compact hitem) (spellsItems_compact hitems)

lemma spellsMembers_compact : ∀ {members : List (String × Json)}, HavePlain members →
    SpellsMembers (compactMembers members) members
  | [], _ => .nil gap_nil
  | (key, _) :: _, ⟨hvalue, hmembers⟩ => by
    have h := SpellsMembers.cons gap_nil gap_nil (.mk key gap_nil gap_nil (spells_compact hvalue))
      (spellsMembers_compact hmembers)
    simpa [compactMembers] using h

end

mutual

/-- The pretty form of a plain value spells it, at every level. -/
theorem spells_pretty (level : Nat) : ∀ {j : Json}, j.IsPlain → Spells (j.pretty level) j
  | .null, _ => .null
  | .bool true, _ => .yes
  | .bool false, _ => .no
  | .number _, ⟨n, hn⟩ => hn ▸ .natural n
  | .string s, _ => .string s
  | .array [], _ => .noItems gap_nil
  | .array (_ :: _), ⟨hitem, hitems⟩ => by
    have h := Spells.items (gap_newLine (level + 1)) (spells_pretty (level + 1) hitem)
      (spellsItems_pretty level hitems)
    simpa [pretty] using h
  | .object [], _ => .noMembers gap_nil
  | .object ((key, _) :: _), ⟨hvalue, hmembers⟩ => by
    have h := Spells.members (gap_newLine (level + 1))
      (.mk key gap_nil gap_space (spells_pretty (level + 1) hvalue))
      (spellsMembers_pretty level hmembers)
    simpa [pretty] using h

lemma spellsItems_pretty (level : Nat) : ∀ {items : List Json}, ArePlain items →
    SpellsItems (prettyItems level items) items
  | [], _ => .nil (gap_newLine level)
  | _ :: _, ⟨hitem, hitems⟩ => by
    have h := SpellsItems.cons gap_nil (gap_newLine (level + 1)) (spells_pretty (level + 1) hitem)
      (spellsItems_pretty level hitems)
    simpa [prettyItems] using h

lemma spellsMembers_pretty (level : Nat) : ∀ {members : List (String × Json)}, HavePlain members →
    SpellsMembers (prettyMembers level members) members
  | [], _ => .nil (gap_newLine level)
  | (key, _) :: _, ⟨hvalue, hmembers⟩ => by
    have h := SpellsMembers.cons gap_nil (gap_newLine (level + 1))
      (.mk key gap_nil gap_space (spells_pretty (level + 1) hvalue))
      (spellsMembers_pretty level hmembers)
    simpa [prettyMembers] using h

end

/-- A plain value is read back from its compact form. -/
theorem ofString?_toCompactString (h : j.IsPlain) : ofString? j.toCompactString = some j :=
  ofString?_of_spells (spells_compact h)

/-- A plain value is read back from its pretty form. -/
theorem ofString?_toPrettyString (h : j.IsPlain) : ofString? j.toPrettyString = some j :=
  ofString?_of_spells (spells_pretty 0 h)

end ClassicalPlanning.Json
