/-
The magnitude of numbers that are held.

A number that is held as a number of the binary format of sixty-four bits is worked out in
two steps.  Its leading digits, as many as a word of sixty-four bits can hold, are rounded
to the format, and so is the power of ten that makes up for their place; then the two are
multiplied.  Near the end of the range the two steps may differ from a single rounding, in
either direction.
-/
import ClassicalPlanning.Text.Word64

namespace ClassicalPlanning

/-- Appends digits to a number as long as it stays below the bound of a word; gives the
digits that are left, too. -/
def appendDigits (n : Nat) : List Char → Nat × List Char
  | [] => (n, [])
  | c :: cs =>
    if 10 * n + decimalValue [c] < word64Bound then appendDigits (10 * n + decimalValue [c]) cs
    else (n, c :: cs)

namespace Decimal

/-- The leading digits as a number, and the power of ten by which it is to be multiplied.
The digits before the point that are left out count as zeros, and those after it not at
all. -/
def scaled (d : Decimal) : Nat × Int :=
  let (whole, omitted) := appendDigits 0 d.integer
  let (leading, unused) := appendDigits whole d.fraction
  (leading, d.exponent + omitted.length + unused.length - d.fraction.length)

/-- Whether working the number out in two steps leads out of the range. -/
def leavesRange (d : Decimal) : Bool :=
  match d.scaled with
  | (leading, .ofNat e) =>
    leading != 0 && (greatestDecimalExponent < e ||
      overflowThreshold ≤ roundToBinary64 leading * roundToBinary64 (Nat.pow 10 e))
  | (_, .negSucc _) => false

end Decimal

theorem appendDigits_lt {n : Nat} (h : n < word64Bound) (cs : List Char) :
    (appendDigits n cs).1 < word64Bound := by
  induction cs generalizing n with
  | nil => simpa [appendDigits] using h
  | cons c cs ih =>
    simp only [appendDigits]
    split
    next hlt => exact ih hlt
    next => exact h

end ClassicalPlanning
