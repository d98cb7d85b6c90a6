/-
The command.

Files, the environment, the output and the exit code; what to do with them is decided in
`ClassicalPlanning.CommandLine.Execution`.
-/
import ClassicalPlanning.CommandLine.Execution

namespace ClassicalPlanning.CommandLine

instance : FileAccess IO where
  readText? file := try some <$> IO.FS.readFile ⟨file⟩ catch _ => pure none
  writeText file text := try IO.FS.writeFile ⟨file⟩ text; pure true catch _ => pure false

/-- More turns than a search can take. -/
def turns : Nat := Nat.pow 2 62

/-- The value of a variable of the process, if it is set to Unicode text.  What is no text
comes from the system with replacement characters in it, so a value with one of them counts
as not set. -/
def processVariable? (key : String) : IO (Option String) := do
  return (← IO.getEnv key).filter fun value => '\ufffd' ∉ value.toList

/-- The environment of the process, as far as settings are concerned. -/
def processEnvironment : IO Environment := do
  let keys := [Environment.levelKey, Environment.expansionsKey, Environment.progressKey]
  let values ← keys.mapM fun key => return (key, ← processVariable? key)
  return fun key => (values.lookup key).join

end ClassicalPlanning.CommandLine

open ClassicalPlanning.CommandLine in
/-- Carries out the command line. -/
def main (words : List String) : IO UInt32 := do
  match ← run (m := IO) (← processEnvironment) turns words with
  | none => return 1
  | some outcome =>
    IO.print outcome.output
    if let some remark := outcome.remark then IO.eprintln s!"Error: {remark}"
    return outcome.exitCode
