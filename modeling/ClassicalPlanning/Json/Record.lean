/-
Records in JSON.

A record is written as an object with one member for each field, in the order of the
fields.  It is read from an object with the members in any order, further members being
skipped, or from an array of the fields in their order; a field that occurs twice is
refused.
-/
import ClassicalPlanning.Json.Basic

namespace ClassicalPlanning.Json

/-- The values of the members with the given key. -/
def valuesAt (members : List (String × Json)) (key : String) : List Json :=
  members.filterMap fun (k, value) => if k = key then some value else none

/-- The value of the member with the given key, if there is one; nothing if there are
several. -/
def field? (members : List (String × Json)) (key : String) : Option (Option Json) :=
  match valuesAt members key with
  | [] => some none
  | [value] => some (some value)
  | _ => none

/-- The fields of a record, each of which may be absent from an object.  An array holds
every field, or at least the first ones if `short` allows the others to be left out. -/
def fields? (short : Bool) (keys : List String) : Json → Option (List (Option Json))
  | .object members => keys.mapM (field? members)
  | .array items =>
    if items.length = keys.length ∨ (short ∧ items.length ≤ keys.length) then
      some (items.map some ++ List.replicate (keys.length - items.length) none)
    else none
  | _ => none

/-- The items of an array, each read by `f`. -/
def items? {α : Type} (f : Json → Option α) : Json → Option (List α)
  | .array items => items.mapM f
  | _ => none

/-- The string that a value is. -/
def string? : Json → Option String
  | .string s => some s
  | _ => none

/-- The truth value that a value is. -/
def bool? : Json → Option Bool
  | .bool b => some b
  | _ => none

/-- An array of the values that `f` gives. -/
def ofList {α : Type} (f : α → Json) (l : List α) : Json :=
  .array (l.map f)

/-- The value that `f` gives, or `null` if there is nothing to give. -/
def ofOption {α : Type} (f : α → Json) : Option α → Json
  | none => .null
  | some a => f a

/-- Nothing from `null`, and what `f` reads from any other value. -/
def option? {α : Type} (f : Json → Option α) : Json → Option (Option α)
  | .null => some none
  | j => (f j).map some

end ClassicalPlanning.Json
