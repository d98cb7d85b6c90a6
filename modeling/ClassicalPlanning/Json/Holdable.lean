/-
Values that can be held.

A part of a text that is skipped may hold any value.  A part that has to be held until
its place in a record is known must be one that can be represented: no half of a
surrogate pair stands alone in it, and no number leaves the floating-point range when it
is worked out.
-/
import ClassicalPlanning.Json.Basic
import ClassicalPlanning.Json.Magnitude

namespace ClassicalPlanning.Json

mutual

/-- Whether the value can be held. -/
def isHoldable : Json → Bool
  | .unpaired => false
  | .number lexeme => !(Decimal.ofLexeme (lexeme.dropWhile (· == '-'))).leavesRange
  | .array items => areHoldable items
  | .object members => haveHoldable members
  | _ => true

/-- Whether every item can be held. -/
def areHoldable : List Json → Bool
  | [] => true
  | item :: items => isHoldable item && areHoldable items

/-- Whether the value of every member can be held. -/
def haveHoldable : List (String × Json) → Bool
  | [] => true
  | (_, value) :: members => isHoldable value && haveHoldable members

end

end ClassicalPlanning.Json
