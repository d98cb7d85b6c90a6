/-
Numbers, truth values, dates and times of TOML.

Each is one word without blanks, except that a blank may stand between a date and a time.
Integers are within the range of sixty-four bits with a sign, and a floating-point number
must not round to positive infinity.
-/
import ClassicalPlanning.Text.Decimal
import ClassicalPlanning.Toml.Basic
import ClassicalPlanning.Toml.Lexical

namespace ClassicalPlanning.Toml

/-- Digits, of the kind that `isDigit` tells, with single underscores between them. -/
def digits? (isDigit : Char → Bool) : List Char → Option (List Char)
  | [] => none
  | [c] => if isDigit c then some [c] else none
  | c :: '_' :: rest => if isDigit c then (digits? isDigit rest).map (c :: ·) else none
  | c :: rest => if isDigit c then (digits? isDigit rest).map (c :: ·) else none

/-- Decimal digits that do not begin with a zero, unless it is the only digit. -/
def integerDigits? (cs : List Char) : Option (List Char) :=
  match digits? Char.isDigit cs with
  | some ('0' :: _ :: _) => none
  | answer => answer

/-- The value of digits to a base. -/
def valueOfDigits (base : Nat) (digits : List Char) : Nat :=
  digits.foldl (fun n c => base * n + (hexValue? c).getD 0) 0

/-- The digits of a number to a base other than ten. -/
def isDigitOf (base : Nat) (c : Char) : Bool :=
  (hexValue? c).any (· < base)

/-- One more than the greatest integer: two to the power of sixty-three. -/
def integerBound : Int := 9223372036854775808

/-- The integer, if it is in range. -/
def ranged? (n : Int) : Option Int :=
  if -integerBound ≤ n ∧ n < integerBound then some n else none

/-- An integer: decimal with or without a sign, or to the base sixteen, eight or two. -/
def integer? : List Char → Option Int
  | '0' :: 'x' :: cs => do ranged? (valueOfDigits 16 (← digits? (isDigitOf 16) cs))
  | '0' :: 'o' :: cs => do ranged? (valueOfDigits 8 (← digits? (isDigitOf 8) cs))
  | '0' :: 'b' :: cs => do ranged? (valueOfDigits 2 (← digits? (isDigitOf 2) cs))
  | '+' :: cs => do ranged? (decimalValue (← integerDigits? cs))
  | '-' :: cs => do ranged? (-(decimalValue (← integerDigits? cs)))
  | cs => do ranged? (decimalValue (← integerDigits? cs))

/-- Whether the text is an exponent, with or without a sign. -/
def isExponent : List Char → Bool
  | c :: cs =>
    (c == 'e' || c == 'E') &&
      match cs with
      | '+' :: cs => (digits? Char.isDigit cs).isSome
      | '-' :: cs => (digits? Char.isDigit cs).isSome
      | cs => (digits? Char.isDigit cs).isSome
  | [] => false

/-- Whether the text is a floating-point number without a sign: a whole part, and behind
it a fraction or an exponent or both. -/
def isUnsignedFloat (cs : List Char) : Bool :=
  let isPart (c : Char) : Bool := c.isDigit || c == '_'
  (integerDigits? (cs.takeWhile isPart)).isSome &&
    match cs.dropWhile isPart with
    | '.' :: rest =>
      (digits? Char.isDigit (rest.takeWhile isPart)).isSome &&
        ((rest.dropWhile isPart).isEmpty || isExponent (rest.dropWhile isPart))
    | rest => isExponent rest

/-- Whether the text names an infinity or no number. -/
def isSpecialFloat (cs : List Char) : Bool :=
  cs == ['i', 'n', 'f'] || cs == ['n', 'a', 'n']

/-- Whether the text is a floating-point number without a sign that does not round to
infinity. -/
def isFiniteFloat (cs : List Char) : Bool :=
  isUnsignedFloat cs && !(Decimal.ofLexeme (cs.filter (· != '_'))).overflows

/-- Whether the text is a floating-point number.  One that is too large in the negative
range is accepted all the same. -/
def isFloat : List Char → Bool
  | '+' :: cs => isSpecialFloat cs || isFiniteFloat cs
  | '-' :: cs => isSpecialFloat cs || isUnsignedFloat cs
  | cs => isSpecialFloat cs || isFiniteFloat cs

/-- The value of two digits, if it is in the given range. -/
def twoDigits? (least greatest : Nat) (c d : Char) : Option Nat :=
  if c.isDigit ∧ d.isDigit then
    (some (decimalValue [c, d])).filter fun n => least ≤ n ∧ n ≤ greatest
  else none

/-- The number of days of a month. -/
def daysOfMonth (year month : Nat) : Nat :=
  if month = 2 then
    if (year % 4 = 0 ∧ year % 100 ≠ 0) ∨ year % 400 = 0 then 29 else 28
  else if month ∈ [4, 6, 9, 11] then 30
  else 31

/-- The text after the date at its start. -/
def date? : List Char → Option (List Char)
  | a :: b :: c :: d :: '-' :: e :: f :: '-' :: g :: h :: rest => do
    if !([a, b, c, d].all Char.isDigit) then none
    let month ← twoDigits? 1 12 e f
    let _ ← twoDigits? 1 (daysOfMonth (decimalValue [a, b, c, d]) month) g h
    return rest
  | _ => none

/-- The text after the time at its start, which may have a fraction of a second. -/
def time? : List Char → Option (List Char)
  | a :: b :: ':' :: c :: d :: ':' :: e :: f :: rest => do
    let _ ← twoDigits? 0 23 a b
    let _ ← twoDigits? 0 59 c d
    let _ ← twoDigits? 0 60 e f
    match rest with
    | '.' :: rest =>
      if (rest.takeWhile Char.isDigit).isEmpty then none else rest.dropWhile Char.isDigit
    | rest => rest
  | _ => none

/-- Whether the text is an offset from universal time. -/
def isOffset : List Char → Bool
  | ['Z'] => true
  | ['z'] => true
  | [sign, a, b, ':', c, d] =>
    (sign == '+' || sign == '-') && (twoDigits? 0 23 a b).isSome && (twoDigits? 0 59 c d).isSome
  | _ => false

/-- Whether the text is a time, with or without an offset. -/
def isTimeOfDate (cs : List Char) : Bool :=
  match time? cs with
  | some [] => true
  | some rest => isOffset rest
  | none => false

/-- Whether the text is a date. -/
def isDate (cs : List Char) : Bool :=
  date? cs == some []

/-- Whether the text is a date, a time, or both. -/
def isDateTime (cs : List Char) : Bool :=
  match date? cs with
  | some [] => true
  | some (c :: rest) => (c == 'T' || c == 't') && isTimeOfDate rest
  | none => time? cs == some []

/-- The value that a word spells. -/
def wordItem? (cs : List Char) : Option Item :=
  if cs = ['t', 'r', 'u', 'e'] then some (.boolean true)
  else if cs = ['f', 'a', 'l', 's', 'e'] then some (.boolean false)
  else if isDateTime cs then some (.dateTime cs)
  else if isFloat cs then some (.float cs)
  else (integer? cs).map .integer

/-- A character of such a word. -/
def isWordChar (c : Char) : Bool :=
  c.isAlphanum || c == '_' || c == '-' || c == '+' || c == '.' || c == ':'

/-- A number, truth value, date or time. -/
def readWord (cs : List Char) : Option (Item × List Char) :=
  let word := cs.takeWhile isWordChar
  let rest := cs.dropWhile isWordChar
  let both : Option (List Char × List Char) :=
    match rest with
    | ' ' :: rest =>
      let time := rest.takeWhile isWordChar
      if isDate word && isTimeOfDate time then some (word ++ ' ' :: time, rest.dropWhile isWordChar)
      else none
    | _ => none
  match both with
  | some (lexeme, rest) => some (.dateTime lexeme, rest)
  | none => (wordItem? word).map (·, rest)

end ClassicalPlanning.Toml
