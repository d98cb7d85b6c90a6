/-
JSON values.

A number is kept as it is written, so that a reader can tell `1` from `1.0`.  A text in
JSON may spell half of a surrogate pair, which no string holds; such a text, and an object
with such a text for a key, is kept as `Json.unpaired`: it may be skipped but not read.
-/
import ClassicalPlanning.Text.Decimal

namespace ClassicalPlanning

/-- A value of the JSON data model. -/
inductive Json where
  /-- The absent value. -/
  | null
  /-- A truth value. -/
  | bool (b : Bool)
  /-- A number, as it is written. -/
  | number (lexeme : List Char)
  /-- A string. -/
  | string (s : String)
  /-- An array. -/
  | array (items : List Json)
  /-- An object, with its members in their order; keys may occur twice. -/
  | object (members : List (String × Json))
  /-- A text that holds half of a surrogate pair, or an object with such a key. -/
  | unpaired
deriving Inhabited

namespace Json

/-- The decimal digits of a number. -/
def ofNat (n : Nat) : Json :=
  .number (Nat.toDigits 10 n)

/-- The natural number that a value is, if it is written as one, with digits alone. -/
def natural? : Json → Option Nat
  | .number lexeme => if lexeme.all Char.isDigit then some (decimalValue lexeme) else none
  | _ => none

mutual

/-- How deeply arrays and objects are nested in the value. -/
def depth : Json → Nat
  | .array items => depthOfItems items + 1
  | .object members => depthOfMembers members + 1
  | _ => 0

/-- The depth of the deepest item. -/
def depthOfItems : List Json → Nat
  | [] => 0
  | item :: items => max (depth item) (depthOfItems items)

/-- The depth of the deepest member. -/
def depthOfMembers : List (String × Json) → Nat
  | [] => 0
  | (_, value) :: members => max (depth value) (depthOfMembers members)

end

end Json

end ClassicalPlanning
