/-
Limits from a file.

A settings file is a TOML document, in which three keys count and all others are ignored.
-/
import ClassicalPlanning.Settings.Environment
import ClassicalPlanning.Toml.Document

namespace ClassicalPlanning

namespace Toml

/-- The natural number that an item is. -/
def Item.natural? : Item → Option Nat
  | .integer n => if 0 ≤ n then some n.toNat else none
  | _ => none

/-- The truth value that an item is. -/
def Item.boolean? : Item → Option Bool
  | .boolean b => some b
  | _ => none

/-- What `read` makes of the item under a key: nothing if there is no such key, and no
answer if there is one that cannot be read. -/
def Entries.setting? {α : Type} (entries : Entries) (read : Item → Option α) (key : String) :
    Option (Option α) :=
  match entries.get? key with
  | none => some none
  | some item => (read item).map some

end Toml

namespace SearchLimits

/-- The limits that a document sets; the others have their defaults. -/
def ofEntries? (entries : Toml.Entries) : Option SearchLimits := do
  return {
    maxLevel := ← entries.setting? Toml.Item.natural? "max_level"
    maxExpansions := ← entries.setting? Toml.Item.natural? "max_expansions"
    logProgress := (← entries.setting? Toml.Item.boolean? "log_progress").getD true }

/-- The limits that the text of a settings file sets. -/
def ofToml (text : String) : Except SettingsFault SearchLimits :=
  match (Toml.ofString? text).bind ofEntries? with
  | some limits => .ok limits
  | none => .error .malformed

/-- The limits that a settings file sets, given its text if it can be read as text. -/
def ofFile (text? : Option String) : Except SettingsFault SearchLimits :=
  match text? with
  | some text => ofToml text
  | none => .error .unreadable

end SearchLimits

end ClassicalPlanning
