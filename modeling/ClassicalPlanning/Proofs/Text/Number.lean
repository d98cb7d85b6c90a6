/-
Numbers that people write.

White space around a number does not count (`Padded`): what is left of a text when it is trimmed is
the only thing without white space at its ends that the text has between white space
(`trimBlanks_eq_iff`).

A number is spelled by decimal digits, with a plus sign before them or not (`SpellsNumber`).  The
reader takes every text that spells a number below the bound for this number, and takes no other
text (`word64?_eq_some_iff`).
-/
import ClassicalPlanning.Text.Blank
import ClassicalPlanning.Text.Word64
import Mathlib.Data.List.Induction
import Mathlib.Data.List.TakeWhile
import Mathlib.Data.Nat.Digits.Defs

namespace ClassicalPlanning

/-! ## White space around a text -/

section Padding

variable {text core : List Char}

/-- The text is `core` with white space before it and after it, of which there may be none. -/
def Padded (text core : List Char) : Prop :=
  ∃ before after, (∀ c ∈ before, isBlank c) ∧ (∀ c ∈ after, isBlank c) ∧
    text = before ++ core ++ after

lemma padded_trimBlanks (text : List Char) : Padded text (trimBlanks text) := by
  refine ⟨text.takeWhile isBlank, ((text.dropWhile isBlank).reverse.takeWhile isBlank).reverse,
    fun c hc => List.mem_takeWhile_imp hc,
    fun c hc => List.mem_takeWhile_imp (List.mem_reverse.mp hc), ?_⟩
  rw [trimBlanks, List.append_assoc, ← List.reverse_append, List.takeWhile_append_dropWhile,
    List.reverse_reverse, List.takeWhile_append_dropWhile]

/-- White space before a text without any is all that is dropped from its front. -/
lemma dropWhile_isBlank_append {before : List Char} (hbefore : ∀ c ∈ before, isBlank c)
    (hcore : ∀ c ∈ core, isBlank c = false) (hne : core ≠ []) (after : List Char) :
    (before ++ core ++ after).dropWhile isBlank = core ++ after := by
  obtain ⟨c, rest, rfl⟩ := List.exists_cons_of_ne_nil hne
  have hc : isBlank c = false := hcore c List.mem_cons_self
  rw [List.append_assoc, List.dropWhile_append_of_pos hbefore, List.cons_append,
    List.dropWhile_cons_of_neg (by simp [hc])]

/-- Trimming leaves what a text without white space inside has between white space. -/
theorem trimBlanks_eq_iff (hcore : ∀ c ∈ core, isBlank c = false) (hne : core ≠ []) :
    trimBlanks text = core ↔ Padded text core := by
  constructor
  · rintro rfl
    exact padded_trimBlanks text
  · rintro ⟨before, after, hbefore, hafter, rfl⟩
    have hafter' : ∀ c ∈ after.reverse, isBlank c := fun c hc => hafter c (List.mem_reverse.mp hc)
    have hcore' : ∀ c ∈ core.reverse, isBlank c = false :=
      fun c hc => hcore c (List.mem_reverse.mp hc)
    have hback := dropWhile_isBlank_append hafter' hcore' (List.reverse_ne_nil_iff.mpr hne) []
    rw [List.append_nil, List.append_nil] at hback
    rw [trimBlanks, dropWhile_isBlank_append hbefore hcore hne, List.reverse_append, hback,
      List.reverse_reverse]

end Padding

/-! ## Digits -/

section Digits

variable {cs : List Char} {n : Nat}

lemma isDigit_iff_exists_digitChar {c : Char} : c.isDigit ↔ ∃ d < 10, Nat.digitChar d = c := by
  constructor
  · intro h
    have hbounds := Char.isDigit_iff_toNat.mp h
    simp only [Char.reduceToNat] at hbounds
    have hlt : c.toNat - 48 < 10 := by omega
    refine ⟨c.toNat - 48, hlt, Char.toNat_inj.mp ?_⟩
    rw [Nat.toNat_digitChar_of_lt_ten hlt]
    omega
  · rintro ⟨d, hd, rfl⟩
    simpa [Nat.isDigit_digitChar] using hd

lemma all_isDigit_iff : cs.all Char.isDigit ↔
    ∃ digits : List Nat, (∀ d ∈ digits, d < 10) ∧ digits.map Nat.digitChar = cs := by
  constructor
  · intro h
    induction cs with
    | nil => exact ⟨[], by simp, rfl⟩
    | cons c cs ih =>
      rw [List.all_cons, Bool.and_eq_true] at h
      obtain ⟨d, hd, hc⟩ := isDigit_iff_exists_digitChar.mp h.1
      obtain ⟨digits, hdigits, hcs⟩ := ih h.2
      exact ⟨d :: digits, List.forall_mem_cons.mpr ⟨hd, hdigits⟩, by rw [List.map_cons, hc, hcs]⟩
  · rintro ⟨digits, hdigits, rfl⟩
    simpa [Nat.isDigit_digitChar] using hdigits

/-- The value of digits is that of the positional system. -/
lemma decimalValue_map_digitChar {digits : List Nat} (h : ∀ d ∈ digits, d < 10) :
    decimalValue (digits.map Nat.digitChar) = Nat.ofDigits 10 digits.reverse := by
  induction digits using List.reverseRecOn with
  | nil => rfl
  | append_singleton digits d ih =>
    have hdigit : (Nat.digitChar d).toNat - '0'.toNat = d :=
      Nat.toNat_digitChar_sub_48_of_lt_ten (h d (by simp))
    have hinit : decimalValue (digits.map Nat.digitChar) = Nat.ofDigits 10 digits.reverse :=
      ih fun d' hd' => h d' (by simp [hd'])
    rw [List.map_append, decimalValue, List.foldl_append, ← decimalValue, hinit,
      List.reverse_append, List.reverse_singleton, List.singleton_append, Nat.ofDigits_cons,
      List.map_singleton, List.foldl_cons, List.foldl_nil, hdigit, Nat.add_comm]

/-- The text spells the number: it is a plus sign or nothing, and after it one or more digits, the
first of which has the greatest weight. -/
def SpellsNumber (cs : List Char) (n : Nat) : Prop :=
  ∃ sign digits, (sign = [] ∨ sign = ['+']) ∧ digits ≠ [] ∧ (∀ d ∈ digits, d < 10) ∧
    cs = sign ++ digits.map Nat.digitChar ∧ n = Nat.ofDigits 10 digits.reverse

lemma word64OfDigits?_eq_some_iff : word64OfDigits? cs = some n ↔
    n < word64Bound ∧ ∃ digits, digits ≠ [] ∧ (∀ d ∈ digits, d < 10) ∧
      cs = digits.map Nat.digitChar ∧ n = Nat.ofDigits 10 digits.reverse := by
  rw [word64OfDigits?, Option.ite_none_right_eq_some, Option.some.injEq]
  constructor
  · rintro ⟨⟨hne, hdigits, hlt⟩, rfl⟩
    obtain ⟨digits, hbounds, rfl⟩ := all_isDigit_iff.mp hdigits
    exact ⟨hlt, digits, fun h => hne (by rw [h, List.map_nil]), hbounds, rfl,
      decimalValue_map_digitChar hbounds⟩
  · rintro ⟨hlt, digits, hne, hdigits, rfl, rfl⟩
    have hvalue := decimalValue_map_digitChar hdigits
    exact ⟨⟨by simpa using hne, all_isDigit_iff.mpr ⟨digits, hdigits, rfl⟩, hvalue ▸ hlt⟩, hvalue⟩

/-- The reader takes just the texts that spell a number below the bound. -/
theorem word64?_eq_some_iff : word64? cs = some n ↔ SpellsNumber cs n ∧ n < word64Bound := by
  have hplus : ∀ digits : List Nat, ∀ rest, digits.map Nat.digitChar ≠ '+' :: rest := by
    intro digits rest h
    obtain ⟨d, -, -, hd, -⟩ := List.map_eq_cons_iff.mp h
    exact Nat.digitChar_ne '+' (by decide) hd
  rw [word64?.eq_def]
  split
  · rename_i rest
    rw [word64OfDigits?_eq_some_iff]
    constructor
    · rintro ⟨hlt, digits, hne, hdigits, rfl, hn⟩
      exact ⟨⟨['+'], digits, .inr rfl, hne, hdigits, rfl, hn⟩, hlt⟩
    · rintro ⟨⟨sign, digits, rfl | rfl, hne, hdigits, hcs, hn⟩, hlt⟩
      · exact absurd hcs.symm (hplus digits rest)
      · exact ⟨hlt, digits, hne, hdigits, (List.cons.inj hcs).2, hn⟩
  · rename_i hsign
    rw [word64OfDigits?_eq_some_iff]
    constructor
    · rintro ⟨hlt, digits, hne, hdigits, rfl, hn⟩
      exact ⟨⟨[], digits, .inl rfl, hne, hdigits, rfl, hn⟩, hlt⟩
    · rintro ⟨⟨sign, digits, rfl | rfl, hne, hdigits, rfl, hn⟩, hlt⟩
      · exact ⟨hlt, digits, hne, hdigits, rfl, hn⟩
      · exact absurd rfl (hsign _)

/-- A number is spelled without white space. -/
lemma SpellsNumber.not_blank (h : SpellsNumber cs n) : ∀ c ∈ cs, isBlank c = false := by
  obtain ⟨sign, digits, hsign, -, hdigits, rfl, -⟩ := h
  intro c hc
  rcases List.mem_append.mp hc with hc | hc
  · rcases hsign with rfl | rfl
    · nomatch hc
    · rw [List.mem_singleton.mp hc]
      decide
  · obtain ⟨d, hd, rfl⟩ := List.mem_map.mp hc
    have hblank : ∀ d < 10, isBlank (Nat.digitChar d) = false := by decide
    exact hblank d (hdigits d hd)

lemma SpellsNumber.ne_nil (h : SpellsNumber cs n) : cs ≠ [] := by
  obtain ⟨sign, digits, -, hne, -, rfl, -⟩ := h
  simpa using fun _ => hne

end Digits

end ClassicalPlanning
