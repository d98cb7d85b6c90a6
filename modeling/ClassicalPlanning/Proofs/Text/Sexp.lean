/-
Expressions in brackets.

A text in brackets is made of words and of brackets, with white space between them.  Its tokens are
its words and brackets (`Token.ofText`); if the brackets match, it consists of expressions, which
are words or lists of expressions (`Sexp`).

The reader puts expressions together from the last token to the first, so that their order is kept
(`Sexp.assemble`).  It gives an expression just if the tokens of the text are those of the
expression, so that the brackets of the text match and there is nothing else in the text
(`Sexp.read?_eq_some_iff`).
-/
import ClassicalPlanning.Proofs.Text.Readable

namespace ClassicalPlanning

/-- What a text in brackets is made of. -/
inductive Token where
  /-- An opening bracket. -/
  | opening
  /-- A closing bracket. -/
  | closing
  /-- A word. -/
  | word (w : String)
deriving DecidableEq, Repr

/-! ## The tokens of a text -/

namespace Token

/-- The token that a character is by itself: none if it is white space. -/
def ofChar (c : Char) : List Token :=
  if c = '(' then [opening] else if c = ')' then [closing] else []

/-- What has been read of the end of a text: the word that it begins with, which may be empty, and
the tokens behind this word. -/
abbrev Suffix := List Char × List Token

/-- The tokens of what has been read: the word is one if it is not empty. -/
def close : Suffix → List Token
  | ([], ts) => ts
  | (c :: cs, ts) => word (String.ofList (c :: cs)) :: ts

/-- Reads a character before what has been read. -/
def scan (c : Char) : Suffix → Suffix
  | (w, ts) => if isWordChar c then (c :: w, ts) else ([], ofChar c ++ close (w, ts))

/-- The tokens of a text. -/
def ofText (cs : List Char) : List Token :=
  close (cs.foldr scan ([], []))

section

variable {c : Char} {cs s : List Char}

lemma scan_eq_of_not_word (h : isWordChar c = false) (suffix : Suffix) :
    scan c suffix = ([], ofChar c ++ close suffix) := by
  obtain ⟨w, ts⟩ := suffix
  simp [scan, h]

lemma foldr_scan_of_stops (h : Stops isWordChar s) : s.foldr scan ([], []) = ([], ofText s) := by
  cases s with
  | nil => rfl
  | cons c s => rw [ofText, List.foldr_cons, scan_eq_of_not_word (h c rfl), close]

/-- A word is a token where it stops. -/
lemma ofText_word {w : String} (hw : IsWord w) (hs : Stops isWordChar s) :
    ofText (w.toList ++ s) = word w :: ofText s := by
  have hscan : ∀ cs : List Char, (∀ c ∈ cs, isWordChar c = true) →
      cs.foldr scan ([], ofText s) = (cs, ofText s) := by
    intro cs hcs
    induction cs with
    | nil => rfl
    | cons c cs ih =>
      obtain ⟨hc, hcs⟩ := List.forall_mem_cons.mp hcs
      rw [List.foldr_cons, ih hcs, scan, if_pos hc]
  obtain ⟨c, cs, hcons, -⟩ := hw.exists_cons
  rw [ofText, List.foldr_append, foldr_scan_of_stops hs, hscan _ hw.2, hcons, close, ← hcons,
    String.ofList_toList]

/-- The text begins with a character that cannot be part of a word. -/
def BeginsApart (cs : List Char) : Prop :=
  cs.head?.any (fun c => !isWordChar c) = true

instance : Decidable (BeginsApart cs) :=
  inferInstanceAs (Decidable (cs.head?.any (fun c => !isWordChar c) = true))

lemma BeginsApart.stops (h : BeginsApart cs) (s : List Char) : Stops isWordChar (cs ++ s) := by
  obtain ⟨c, hhead, hword⟩ := (Option.any_eq_true _ _).mp h
  obtain ⟨cs, rfl⟩ := List.head?_eq_some_iff.mp hhead
  exact stops_cons (by simpa using hword) _

/-- The text ends with a character that cannot be part of a word. -/
def EndsApart (cs : List Char) : Prop :=
  cs.getLast?.any (fun c => !isWordChar c) = true

instance : Decidable (EndsApart cs) :=
  inferInstanceAs (Decidable (cs.getLast?.any (fun c => !isWordChar c) = true))

lemma close_append (w : List Char) (ts ts' : List Token) :
    close (w, ts ++ ts') = close (w, ts) ++ ts' := by
  cases w <;> rfl

/-- What comes behind the tokens that have been read does not change how a text is read. -/
lemma foldr_scan_append (cs w : List Char) (ts ts' : List Token) :
    cs.foldr scan (w, ts ++ ts') =
      ((cs.foldr scan (w, ts)).1, (cs.foldr scan (w, ts)).2 ++ ts') := by
  induction cs with
  | nil => rfl
  | cons c cs ih =>
    rw [List.foldr_cons, List.foldr_cons, ih]
    obtain ⟨w', ts''⟩ := cs.foldr scan (w, ts)
    rw [scan, scan, close_append]
    split <;> simp

/-- A text that ends with a bracket or with white space can be told from what is behind it. -/
lemma ofText_append (h : EndsApart cs) (s : List Char) :
    ofText (cs ++ s) = ofText cs ++ ofText s := by
  obtain ⟨c, hlast, hword⟩ := (Option.any_eq_true _ _).mp h
  obtain ⟨init, rfl⟩ := List.getLast?_eq_some_iff.mp hlast
  have hc : isWordChar c = false := by simpa using hword
  have hend : ofText (init ++ [c]) = close (init.foldr scan ([], ofChar c)) := by
    rw [ofText, List.foldr_append, List.foldr_cons, List.foldr_nil, scan_eq_of_not_word hc, close,
      List.append_nil]
  rw [hend, ofText, List.append_assoc, List.foldr_append, List.singleton_append, List.foldr_cons,
    scan_eq_of_not_word hc, foldr_scan_append, close_append, ofText]

end

end Token

/-! ## Expressions -/

/-- An expression in brackets. -/
inductive Sexp where
  /-- A word. -/
  | atom (w : String)
  /-- Expressions between brackets. -/
  | list (es : List Sexp)

namespace Sexp

mutual

/-- The tokens of an expression. -/
def tokens : Sexp → List Token
  | atom w => [.word w]
  | list es => .opening :: (tokensAll es ++ [.closing])

/-- The tokens of several expressions. -/
def tokensAll : List Sexp → List Token
  | [] => []
  | e :: es => e.tokens ++ tokensAll es

end

/-- Puts a token before what has been put together so far: the expressions behind it that stand
between the same brackets, and for each bracket around these that has been closed already, those
behind it. -/
def assemble : Token → List (List Sexp) → Option (List (List Sexp))
  | .word w, es :: outer => some ((.atom w :: es) :: outer)
  | .closing, es :: outer => some ([] :: es :: outer)
  | .opening, es :: above :: outer => some ((.list es :: above) :: outer)
  | _, _ => none

/-- The expressions that the tokens make, if their brackets match. -/
def ofTokens? (ts : List Token) : Option (List Sexp) :=
  match ts.foldrM assemble [[]] with
  | some [es] => some es
  | _ => none

/-- The expression that a text is, if it is one and no more. -/
def read? (text : String) : Option Sexp :=
  match ofTokens? (Token.ofText text.toList) with
  | some [e] => some e
  | _ => none

section

variable {t : Token} {ts : List Token} {e : Sexp} {es : List Sexp} {stack stack' : List (List Sexp)}

lemma tokensAll_append (es es' : List Sexp) :
    tokensAll (es ++ es') = tokensAll es ++ tokensAll es' := by
  induction es with
  | nil => rfl
  | cons e es ih => rw [List.cons_append, tokensAll, tokensAll, ih, List.append_assoc]

mutual

/-- The tokens of an expression put it before the expressions behind it. -/
lemma foldrM_assemble_tokens (es : List Sexp) (outer : List (List Sexp)) : ∀ e : Sexp,
    e.tokens.foldrM assemble (es :: outer) = some ((e :: es) :: outer)
  | .atom w => by simp [tokens, assemble]
  | .list l => by
    have hitems := foldrM_assemble_tokensAll [] (es :: outer) l
    simp [tokens, List.foldrM_append, assemble, hitems]

lemma foldrM_assemble_tokensAll (es : List Sexp) (outer : List (List Sexp)) : ∀ l : List Sexp,
    (tokensAll l).foldrM assemble (es :: outer) = some ((l ++ es) :: outer)
  | [] => by simp [tokensAll]
  | e :: l => by
    have hrest := foldrM_assemble_tokensAll es outer l
    have hitem := foldrM_assemble_tokens (l ++ es) outer e
    simp [tokensAll, List.foldrM_append, hrest, hitem]

end

/-- The tokens of what has been put together so far. -/
def stackTokens : List (List Sexp) → List Token
  | [] => []
  | es :: outer => tokensAll es ++ outer.flatMap fun es => .closing :: tokensAll es

/-- A token that is put before others does not change these. -/
lemma stackTokens_of_assemble (h : assemble t stack = some stack') :
    stackTokens stack' = t :: stackTokens stack := by
  cases t with
  | word w =>
    obtain _ | ⟨es, outer⟩ := stack
    · nomatch h
    · obtain rfl := Option.some.inj h
      rfl
  | closing =>
    obtain _ | ⟨es, outer⟩ := stack
    · nomatch h
    · obtain rfl := Option.some.inj h
      rfl
  | opening =>
    obtain _ | ⟨es, _ | ⟨above, outer⟩⟩ := stack
    · nomatch h
    · nomatch h
    · obtain rfl := Option.some.inj h
      simp [stackTokens, tokensAll, tokens]

lemma stackTokens_of_foldrM (h : ts.foldrM assemble [[]] = some stack) :
    stackTokens stack = ts := by
  induction ts generalizing stack with
  | nil =>
    obtain rfl := Option.some.inj h
    rfl
  | cons t ts ih =>
    rw [List.foldrM_cons] at h
    obtain ⟨stack', hstack', ht⟩ := Option.bind_eq_some_iff.mp h
    rw [stackTokens_of_assemble ht, ih hstack']

/-- Tokens make expressions just if they are those of the expressions. -/
lemma ofTokens?_eq_some_iff : ofTokens? ts = some es ↔ ts = tokensAll es := by
  rw [ofTokens?]
  constructor
  · intro h
    split at h
    · rename_i stack hstack
      obtain rfl := Option.some.inj h
      rw [← stackTokens_of_foldrM hstack, stackTokens, List.flatMap_nil, List.append_nil]
    · nomatch h
  · rintro rfl
    rw [foldrM_assemble_tokensAll, List.append_nil]

/-- A text reads as an expression just if its tokens are those of the expression. -/
theorem read?_eq_some_iff {text : String} :
    read? text = some e ↔ Token.ofText text.toList = e.tokens := by
  have htokens : tokensAll [e] = e.tokens := by rw [tokensAll, tokensAll, List.append_nil]
  rw [← htokens, ← ofTokens?_eq_some_iff, read?]
  constructor
  · intro h
    split at h
    · rename_i hread
      obtain rfl := Option.some.inj h
      exact hread
    · nomatch h
  · intro h
    rw [h]

end

end Sexp

end ClassicalPlanning
