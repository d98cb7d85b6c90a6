/-
Strings and numbers of a text.

A string is written character by character, and it is read piece by piece: what is written for a
character is read as one piece, which stands for that character, whatever follows.  A control
character without an escape of its own is written by its unit, which is never half of a
surrogate pair.  A natural number is written by its digits, of which the first is not zero unless
it is the only one, and they are read up to the first character that is no part of a number.

The main results are `readString_flatMap` and `readNumber_toDigits`.
-/
import ClassicalPlanning.Json.Printer
import ClassicalPlanning.Json.Reader
import Mathlib.Tactic.Lemma

namespace ClassicalPlanning.Json

variable {c : Char} {rest : List Char} {n : Nat}

/-! ## Strings -/

/-- The piece stands for the character: it is the character itself, or its unit if it is a
control character. -/
def Piece.StandsFor (p : Piece) (c : Char) : Prop :=
  p = .char c ∨ p = .codeUnit c.toNat ∧ c.toNat < 0x20

lemma codeUnit?_hexDigit : ∀ n < 0x20,
    codeUnit? '0' '0' (hexDigit (n / 16)) (hexDigit (n % 16)) = some n := by
  decide

lemma readPieces_of_plain (hquote : c ≠ '"') (hslash : c ≠ '\\') (hcontrol : ¬ c.toNat < 0x20) :
    readPieces (c :: rest) = (readPieces rest).map fun (ps, rest) => (.char c :: ps, rest) := by
  rw [readPieces.eq_5 _ _ hquote (fun _ _ _ _ _ h => absurd h hslash)
    (fun _ _ h => absurd h hslash), if_neg (by simp [hcontrol, hslash])]
  cases readPieces rest <;> rfl

/-- What is written for a character is read as one piece, which stands for it. -/
lemma exists_readPieces_escapeChar (c : Char) : ∃ p : Piece, p.StandsFor c ∧ ∀ rest,
    readPieces (escapeChar c ++ rest) =
      (readPieces rest).map fun (ps, rest) => (p :: ps, rest) := by
  unfold escapeChar
  split
  -- The seven characters with an escape of their own.
  iterate 7
    refine ⟨.char _, Or.inl rfl, fun rest => ?_⟩
    simp only [List.cons_append, List.nil_append]
    rw [readPieces.eq_4 _ _ (by simp)]
    cases readPieces rest <;> rfl
  next hquote hslash _ _ _ _ _ =>
    split
    next hcontrol =>
      refine ⟨.codeUnit c.toNat, Or.inr ⟨rfl, hcontrol⟩, fun rest => ?_⟩
      simp only [List.cons_append, List.nil_append]
      rw [readPieces.eq_3, codeUnit?_hexDigit _ hcontrol]
      cases readPieces rest <;> rfl
    next hcontrol =>
      exact ⟨.char c, Or.inl rfl, fun rest => readPieces_of_plain hquote hslash hcontrol⟩

lemma assemble_cons {p : Piece} (h : p.StandsFor c) (ps : List Piece) :
    assemble (p :: ps) = (assemble ps).map (c :: ·) := by
  rcases h with rfl | ⟨rfl, hcontrol⟩
  · rw [assemble]
  -- The unit of a control character is not half of a surrogate pair, whatever follows.
  · have hhigh : isHighSurrogate c.toNat = false := by
      simp only [isHighSurrogate, Bool.and_eq_false_imp, decide_eq_true_eq, decide_eq_false_iff_not]
      omega
    have hlow : isLowSurrogate c.toNat = false := by
      simp only [isLowSurrogate, Bool.and_eq_false_imp, decide_eq_true_eq, decide_eq_false_iff_not]
      omega
    cases ps with
    | nil => simp [assemble, hhigh, hlow]
    | cons q ps => cases q <;> simp [assemble, hhigh, hlow]

/-- The characters of a string, as they are written, are read up to the closing quote. -/
lemma exists_readPieces_flatMap (cs rest : List Char) : ∃ ps,
    readPieces (cs.flatMap escapeChar ++ '"' :: rest) = some (ps, rest) ∧
      assemble ps = some cs := by
  induction cs with
  | nil => exact ⟨[], rfl, rfl⟩
  | cons c cs ih =>
    obtain ⟨ps, hps, hcs⟩ := ih
    obtain ⟨p, hp, hread⟩ := exists_readPieces_escapeChar c
    refine ⟨p :: ps, ?_, by rw [assemble_cons hp, hcs, Option.map_some]⟩
    rw [List.flatMap_cons, List.append_assoc, hread, hps, Option.map_some]

lemma quote_append (s : String) (rest : List Char) :
    quote s ++ rest = '"' :: (s.toList.flatMap escapeChar ++ '"' :: rest) := by
  simp [quote]

/-- A string is read back from between its quotes. -/
theorem readString_flatMap (s : String) (rest : List Char) :
    readString (s.toList.flatMap escapeChar ++ '"' :: rest) = some (some s, rest) := by
  obtain ⟨ps, hps, hassemble⟩ := exists_readPieces_flatMap s.toList rest
  simp [readString, hps, hassemble]

/-! ## Numbers -/

/-- The text does not go on with what could be a part of a number. -/
def EndsNumber (rest : List Char) : Prop :=
  ∀ c ∈ rest.head?, c.isDigit = false ∧ c ≠ '.' ∧ c ≠ 'e' ∧ c ≠ 'E'

lemma isDigit_of_mem_toDigits {d : Char} (h : d ∈ Nat.toDigits 10 n) : d.isDigit :=
  Nat.isDigit_of_mem_toDigits (by decide) (by decide) h

lemma exists_toDigits_eq_cons (n : Nat) : ∃ d ds, Nat.toDigits 10 n = d :: ds ∧ d.isDigit := by
  obtain ⟨d, ds, hcons⟩ := List.exists_cons_of_ne_nil (Nat.toDigits_ne_nil : Nat.toDigits 10 n ≠ [])
  have hmem : d ∈ Nat.toDigits 10 n := hcons ▸ List.mem_cons_self
  exact ⟨d, ds, hcons, isDigit_of_mem_toDigits hmem⟩

lemma head_toDigits_ne_zero {d : Char} {ds : List Char} (h : n ≠ 0)
    (hcons : Nat.toDigits 10 n = d :: ds) : d ≠ '0' := by
  induction n using Nat.strongRecOn generalizing ds with
  | ind n ih =>
    by_cases hn : n < 10
    · rw [Nat.toDigits_of_lt_base hn] at hcons
      rw [← (List.cons.inj hcons).1]
      simpa [Nat.digitChar_eq_zero] using h
    -- The first digit of a longer number is that of the number without its last digit.
    · obtain ⟨d', ds', hcons', -⟩ := exists_toDigits_eq_cons (n / 10)
      rw [Nat.toDigits_of_base_le (by decide) (by omega), hcons'] at hcons
      obtain rfl : d' = d := (List.cons.inj hcons).1
      exact ih (n / 10) (by omega) (by omega) hcons'

lemma takeWhile_eq_nil_of_endsNumber (h : EndsNumber rest) :
    rest.takeWhile Char.isDigit = [] ∧ rest.dropWhile Char.isDigit = rest := by
  cases rest with
  | nil => exact ⟨rfl, rfl⟩
  | cons c rest =>
    have hdigit : c.isDigit = false := (h c rfl).1
    simp [hdigit]

lemma readDigits_append {ds : List Char} (hne : ds ≠ []) (hds : ∀ d ∈ ds, d.isDigit)
    (h : EndsNumber rest) : readDigits (ds ++ rest) = some (ds, rest) := by
  obtain ⟨htake, hdrop⟩ := takeWhile_eq_nil_of_endsNumber h
  rw [readDigits, List.takeWhile_append_of_pos hds, List.dropWhile_append_of_pos hds, htake,
    hdrop, List.append_nil]
  cases ds with
  | nil => exact absurd rfl hne
  | cons d ds => rfl

lemma readInteger_toDigits (n : Nat) (h : EndsNumber rest) :
    readInteger (Nat.toDigits 10 n ++ rest) = some (Nat.toDigits 10 n, rest) := by
  by_cases hn : n = 0
  · subst hn
    rfl
  · have hdigits : ∀ d ∈ Nat.toDigits 10 n, d.isDigit := fun _ => isDigit_of_mem_toDigits
    rw [readInteger.eq_2, readDigits_append Nat.toDigits_ne_nil hdigits h]
    -- A zero in front would be the whole number.
    intro tail htail
    obtain ⟨d, ds, hcons, -⟩ := exists_toDigits_eq_cons n
    rw [hcons, List.cons_append, List.cons.injEq] at htail
    exact head_toDigits_ne_zero hn hcons htail.1

lemma readFraction_of_endsNumber (h : EndsNumber rest) : readFraction rest = some ([], rest) := by
  cases rest with
  | nil => rfl
  | cons c rest => exact readFraction.eq_2 _ fun tail htail => (h c rfl).2.1 (List.cons.inj htail).1

lemma readExponent_of_endsNumber (h : EndsNumber rest) : readExponent rest = some ([], rest) := by
  cases rest with
  | nil => rfl
  | cons c rest =>
    obtain ⟨-, -, hlower, hupper⟩ := h c rfl
    rw [readExponent.eq_def]
    simp [hlower, hupper]

/-- The digits of a natural number are read back as a number. -/
theorem readNumber_toDigits (n : Nat) (h : EndsNumber rest) :
    readNumber (Nat.toDigits 10 n ++ rest) = some (Nat.toDigits 10 n, rest) := by
  rw [readNumber.eq_2]
  · simp [readUnsigned, readInteger_toDigits n h, readFraction_of_endsNumber h,
      readExponent_of_endsNumber h]
  -- A digit is not the sign.
  · intro tail htail
    obtain ⟨d, ds, hcons, hdigit⟩ := exists_toDigits_eq_cons n
    rw [hcons, List.cons_append, List.cons.injEq] at htail
    simp [htail.1] at hdigit

/-- The digits of a natural number have its value. -/
lemma natural?_ofNat (n : Nat) : (Json.ofNat n).natural? = some n := by
  have hdigits : (Nat.toDigits 10 n).all Char.isDigit :=
    List.all_eq_true.mpr fun _ => isDigit_of_mem_toDigits
  rw [ofNat, natural?, if_pos hdigits, decimalValue, ← Nat.ofDigitChars_eq_foldl,
    Nat.ofDigitChars_ten_toDigits]

end ClassicalPlanning.Json
