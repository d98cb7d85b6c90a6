/-
Writing JSON.

The compact form has no blanks.  The pretty form puts every item and every member on a
line of its own, indented by two blanks for each level, with a blank after the colon;
empty arrays and objects are written `[]` and `{}` in both.
-/
import ClassicalPlanning.Json.Basic

namespace ClassicalPlanning.Json

/-- The digit for a number below sixteen, in lower case. -/
def hexDigit (n : Nat) : Char :=
  if n < 10 then Char.ofNat ('0'.toNat + n) else Char.ofNat ('a'.toNat + (n - 10))

/-- A character inside a string.  The quote, the backslash and the control characters are
escaped, five of these by a letter; every other character stands for itself. -/
def escapeChar (c : Char) : List Char :=
  match c with
  | '"' => ['\\', '"']
  | '\\' => ['\\', '\\']
  | '\x08' => ['\\', 'b']
  | '\x0c' => ['\\', 'f']
  | '\n' => ['\\', 'n']
  | '\r' => ['\\', 'r']
  | '\t' => ['\\', 't']
  | c =>
    if c.toNat < 0x20 then
      ['\\', 'u', '0', '0', hexDigit (c.toNat / 16), hexDigit (c.toNat % 16)]
    else [c]

/-- A string between quotes. -/
def quote (s : String) : List Char :=
  '"' :: s.toList.flatMap escapeChar ++ ['"']

mutual

/-- The value without blanks. -/
def compact : Json → List Char
  | null => ['n', 'u', 'l', 'l']
  | bool true => ['t', 'r', 'u', 'e']
  | bool false => ['f', 'a', 'l', 's', 'e']
  | number lexeme => lexeme
  | string s => quote s
  | array [] => ['[', ']']
  | array (item :: items) => '[' :: compact item ++ compactItems items
  | object [] => ['{', '}']
  | object ((key, value) :: members) =>
    '{' :: quote key ++ ':' :: compact value ++ compactMembers members
  | unpaired => []

/-- The items after the first, and the end of the array. -/
def compactItems : List Json → List Char
  | [] => [']']
  | item :: items => ',' :: compact item ++ compactItems items

/-- The members after the first, and the end of the object. -/
def compactMembers : List (String × Json) → List Char
  | [] => ['}']
  | (key, value) :: members =>
    ',' :: quote key ++ ':' :: compact value ++ compactMembers members

end

/-- A new line at the given level. -/
def newLine (level : Nat) : List Char :=
  '\n' :: List.replicate (2 * level) ' '

mutual

/-- The value over several lines, with its own lines at the given level. -/
def pretty (level : Nat) : Json → List Char
  | null => ['n', 'u', 'l', 'l']
  | bool true => ['t', 'r', 'u', 'e']
  | bool false => ['f', 'a', 'l', 's', 'e']
  | number lexeme => lexeme
  | string s => quote s
  | array [] => ['[', ']']
  | array (item :: items) =>
    '[' :: newLine (level + 1) ++ pretty (level + 1) item ++ prettyItems level items
  | object [] => ['{', '}']
  | object ((key, value) :: members) =>
    '{' :: newLine (level + 1) ++ quote key ++ ':' :: ' ' :: pretty (level + 1) value ++
      prettyMembers level members
  | unpaired => []

/-- The items after the first, and the end of the array. -/
def prettyItems (level : Nat) : List Json → List Char
  | [] => newLine level ++ [']']
  | item :: items =>
    ',' :: newLine (level + 1) ++ pretty (level + 1) item ++ prettyItems level items

/-- The members after the first, and the end of the object. -/
def prettyMembers (level : Nat) : List (String × Json) → List Char
  | [] => newLine level ++ ['}']
  | (key, value) :: members =>
    ',' :: newLine (level + 1) ++ quote key ++ ':' :: ' ' :: pretty (level + 1) value ++
      prettyMembers level members

end

/-- The compact form as a string. -/
def toCompactString (j : Json) : String :=
  String.ofList j.compact

/-- The pretty form as a string. -/
def toPrettyString (j : Json) : String :=
  String.ofList (j.pretty 0)

end ClassicalPlanning.Json
