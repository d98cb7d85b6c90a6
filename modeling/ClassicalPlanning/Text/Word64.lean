/-
Numbers of sixty-four bits.

How a number without a sign is written on a command line or in the environment: decimal
digits, of which there is at least one and of which the first may be zero, with a plus
sign before them or not, and a value below the bound.
-/
import ClassicalPlanning.Text.Decimal

namespace ClassicalPlanning

/-- One more than the greatest number of sixty-four bits. -/
def word64Bound : Nat := 18446744073709551616

/-- The number that the digits spell, if there are any and it is below the bound. -/
def word64OfDigits? (digits : List Char) : Option Nat :=
  if digits ≠ [] ∧ digits.all Char.isDigit ∧ decimalValue digits < word64Bound then
    some (decimalValue digits)
  else none

/-- The number that the text spells. -/
def word64? : List Char → Option Nat
  | '+' :: digits => word64OfDigits? digits
  | digits => word64OfDigits? digits

end ClassicalPlanning
