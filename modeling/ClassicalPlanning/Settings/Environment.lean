/-
Limits from the environment.

Three variables set the limits and the switch of a search.  White space around a value
does not count.  The variables are looked at in the order level, expansions, progress,
and the first one that is malformed is the fault.
-/
import ClassicalPlanning.Search.Limits
import ClassicalPlanning.Text.Blank
import ClassicalPlanning.Text.Word64

namespace ClassicalPlanning

/-- Why settings cannot be had. -/
inductive SettingsFault where
  /-- The file cannot be read, or is no text. -/
  | unreadable
  /-- The file is not a document with settings. -/
  | malformed
  /-- A variable of the environment has a value that it may not have. -/
  | badValue (key value : String)
deriving DecidableEq, Repr

namespace SettingsFault

/-- The fault in words, where the words are this library's own.  The value is quoted with
the white space around it. -/
def message? : SettingsFault → Option String
  | unreadable => none
  | malformed => none
  | badValue key value => some s!"Configuration error: invalid value for {key}: '{value}'"

end SettingsFault

/-- The values of the variables of an environment that are set.  A value is Unicode text: a
variable that is set to anything else cannot be expressed, and counts as not set. -/
abbrev Environment := String → Option String

namespace Environment

/-- The variable for the level limit. -/
def levelKey : String := "STRIPS_MAX_LEVEL"

/-- The variable for the limit on expansions. -/
def expansionsKey : String := "STRIPS_MAX_EXPANSIONS"

/-- The variable for the switch on progress reports. -/
def progressKey : String := "STRIPS_LOG_PROGRESS"

/-- The truth value that a text spells. -/
def truth? (cs : List Char) : Option Bool :=
  if cs = ['t', 'r', 'u', 'e'] then some true
  else if cs = ['f', 'a', 'l', 's', 'e'] then some false
  else none

/-- The value of a variable, read by `read` without the white space around it; nothing if
the variable is not set. -/
def value {α : Type} (env : Environment) (read : List Char → Option α) (key : String) :
    Except SettingsFault (Option α) :=
  match env key with
  | none => .ok none
  | some text =>
    match read (trimBlanks text.toList) with
    | some a => .ok (some a)
    | none => .error (.badValue key text)

end Environment

/-- The limits, with those that the environment sets put in place of the given ones. -/
def SearchLimits.override (limits : SearchLimits) (env : Environment) :
    Except SettingsFault SearchLimits := do
  let level ← env.value word64? Environment.levelKey
  let expansions ← env.value word64? Environment.expansionsKey
  let progress ← env.value Environment.truth? Environment.progressKey
  return {
    maxLevel := level.or limits.maxLevel
    maxExpansions := expansions.or limits.maxExpansions
    logProgress := progress.getD limits.logProgress }

end ClassicalPlanning
