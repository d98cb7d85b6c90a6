/-
Decimal numbers.

The value of a run of digits, the parts of a decimal number with a point and an exponent,
and whether such a number rounds to infinity in the binary floating-point format of
sixty-four bits.
-/
import ClassicalPlanning.Text.Binary64

namespace ClassicalPlanning

/-- The value of decimal digits. -/
def decimalValue (digits : List Char) : Nat :=
  digits.foldl (fun n c => 10 * n + (c.toNat - '0'.toNat)) 0

/-- A decimal number without a sign. -/
structure Decimal where
  /-- The digits before the point. -/
  integer : List Char
  /-- The digits after the point. -/
  fraction : List Char
  /-- The power of ten by which the number is multiplied. -/
  exponent : Int
deriving DecidableEq, Repr

namespace Decimal

/-- The parts of a number without a sign, which may do without a point and without an
exponent. -/
def ofLexeme (lexeme : List Char) : Decimal :=
  let rest := lexeme.dropWhile Char.isDigit
  let (fraction, rest) :=
    match rest with
    | '.' :: rest => (rest.takeWhile Char.isDigit, rest.dropWhile Char.isDigit)
    | rest => ([], rest)
  let exponent : Int :=
    match rest with
    | _ :: '-' :: digits => -(decimalValue digits : Int)
    | _ :: '+' :: digits => decimalValue digits
    | _ :: digits => decimalValue digits
    | [] => 0
  { integer := lexeme.takeWhile Char.isDigit, fraction, exponent }

/-- Whether the number rounds to infinity.  Four hundred places before the point settle
the matter alone, and so does a number below one. -/
def overflows (d : Decimal) : Bool :=
  let digits := (d.integer ++ d.fraction).dropWhile (· == '0')
  let exponent := d.exponent - d.fraction.length
  let places := (digits.length : Int) + exponent
  if digits.isEmpty || places < 0 then false
  else if places > 400 then true
  else
    match exponent with
    | .ofNat e => overflowThreshold ≤ decimalValue digits * Nat.pow 10 e
    | .negSucc e => overflowThreshold * Nat.pow 10 (e + 1) ≤ decimalValue digits

end Decimal

end ClassicalPlanning
