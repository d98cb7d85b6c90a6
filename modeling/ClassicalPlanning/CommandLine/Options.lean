/-
Options of the command line.

An option is given by a long name after two dashes or, for some, by a letter after one.
Its value is the rest of the word, after an equals sign where the name is long, or else
the next word, which then may not begin with a dash unless it is a dash alone.  No option
may be given twice, and there are no arguments besides options.  The words are read from
left to right: asking for the version ends the reading, and so does the first error.
-/
import ClassicalPlanning.CraneYard
import ClassicalPlanning.Text.Word64

namespace ClassicalPlanning

/-- The form in which a plan is written. -/
inductive Plan.Format where
  /-- A heading and a line for each step. -/
  | text
  /-- Pretty JSON. -/
  | json
deriving DecidableEq, Repr

/-- The name of the format. -/
def Plan.Format.name : Plan.Format → String
  | text => "text"
  | json => "json"

/-- The format of the given name. -/
def Plan.Format.ofName? (s : String) : Option Plan.Format :=
  [text, json].find? fun f => f.name = s

namespace CommandLine

/-- What a run is asked to do. -/
structure Options where
  /-- The goal to be reached. -/
  goal : CraneYard.Goal := .topOfP2
  /-- The settings file. -/
  config : Option String := none
  /-- The file for the domain. -/
  domainOut : Option String := none
  /-- The file for the problem. -/
  problemOut : Option String := none
  /-- The file for the plan, which goes to the output if there is none. -/
  planOut : Option String := none
  /-- The form of the plan. -/
  format : Plan.Format := .text
  /-- Whether to list the groundings of the initial state instead of searching. -/
  listActions : Bool := false
  /-- The level limit, before all others. -/
  maxLevel : Option Nat := none
  /-- The limit on expansions, before all others. -/
  maxExpansions : Option Nat := none
deriving DecidableEq, Repr

/-- The options with a value. -/
inductive Setting where
  /-- The goal. -/
  | goal
  /-- The settings file. -/
  | config
  /-- The file for the domain. -/
  | domainOut
  /-- The file for the problem. -/
  | problemOut
  /-- The file for the plan. -/
  | planOut
  /-- The form of the plan. -/
  | format
  /-- The level limit. -/
  | maxLevel
  /-- The limit on expansions. -/
  | maxExpansions
deriving DecidableEq, Repr

/-- All options. -/
inductive Flag where
  /-- An option with a value. -/
  | setting (s : Setting)
  /-- The option to list the groundings. -/
  | listActions
  /-- The option to show the version. -/
  | version
  /-- The option to show how the command is used. -/
  | help
deriving DecidableEq, Repr

/-- The option of the given long name. -/
def Flag.ofLong? (name : String) : Option Flag :=
  [("goal", .setting .goal), ("config", .setting .config), ("domain-out", .setting .domainOut),
    ("problem-out", .setting .problemOut), ("plan-out", .setting .planOut),
    ("format", .setting .format), ("list-actions", .listActions),
    ("max-level", .setting .maxLevel), ("max-expansions", .setting .maxExpansions),
    ("version", .version), ("help", .help)].lookup name

/-- The option of the given letter. -/
def Flag.ofShort? (letter : Char) : Option Flag :=
  [('c', .setting .config), ('p', .setting .planOut), ('V', .version), ('h', .help)].lookup letter

/-- Why a command line is refused. -/
inductive UsageError where
  /-- The word is no option. -/
  | unexpected (word : String)
  /-- The option needs a value and has none. -/
  | missingValue (option : Setting)
  /-- The option has a value that it may not have. -/
  | badValue (option : Setting) (value : String)
  /-- The option takes no value and has one. -/
  | needlessValue (option : Flag)
  /-- The option was given before. -/
  | repeated (option : Flag)
deriving DecidableEq, Repr

/-- What a command line asks for. -/
inductive Request where
  /-- A run with options. -/
  | run (options : Options)
  /-- The version. -/
  | version
  /-- How the command is used. -/
  | help
deriving DecidableEq, Repr

/-- The name of a file, which may not be empty. -/
def path? (value : String) : Option (Option String) :=
  if value.isEmpty then none else some (some value)

/-- A limit. -/
def limit? (value : String) : Option (Option Nat) :=
  (word64? value.toList).map some

/-- The options with one of them set, if it may have the value. -/
def Options.set? (o : Options) (setting : Setting) (value : String) : Option Options :=
  match setting with
  | .goal => do return { o with goal := ← CraneYard.Goal.ofOption? value }
  | .config => do return { o with config := ← path? value }
  | .domainOut => do return { o with domainOut := ← path? value }
  | .problemOut => do return { o with problemOut := ← path? value }
  | .planOut => do return { o with planOut := ← path? value }
  | .format => do return { o with format := ← Plan.Format.ofName? value }
  | .maxLevel => do return { o with maxLevel := ← limit? value }
  | .maxExpansions => do return { o with maxExpansions := ← limit? value }

/-- What the words so far have set. -/
structure Reading where
  /-- The options. -/
  options : Options := {}
  /-- The options that were given. -/
  given : List Flag := []

/-- Takes note of an option, which may not have been given before. -/
def Reading.give (r : Reading) (flag : Flag) : Except UsageError Reading :=
  if flag ∈ r.given then .error (.repeated flag) else .ok { r with given := flag :: r.given }

/-- Gives an option a value. -/
def Reading.assign (r : Reading) (setting : Setting) (value : String) :
    Except UsageError Reading := do
  let r ← r.give (.setting setting)
  match r.options.set? setting value with
  | some options => return { r with options }
  | none => throw (.badValue setting value)

/-- What a word means by itself. -/
inductive Word where
  /-- No option follows. -/
  | separator
  /-- An option, with a value in the same word or not. -/
  | option (flag : Flag) (value? : Option String)
  /-- Anything else. -/
  | other
deriving DecidableEq, Repr

/-- A word of two dashes and a name, behind which an equals sign and a value may stand. -/
def Word.ofLong (cs : List Char) : Word :=
  let name := cs.takeWhile (· != '=')
  let value? :=
    match cs.dropWhile (· != '=') with
    | [] => none
    | _ :: value => some (String.ofList value)
  match Flag.ofLong? (String.ofList name) with
  | some flag => .option flag value?
  | none => .other

/-- A word of a dash and a letter, behind which the value may stand. -/
def Word.ofShort (letter : Char) (rest : List Char) : Word :=
  match Flag.ofShort? letter with
  | some flag =>
    match rest with
    | [] => .option flag none
    | '=' :: value => .option flag (some (String.ofList value))
    | value => .option flag (some (String.ofList value))
  | none => .other

/-- What a word means by itself. -/
def Word.ofString (word : String) : Word :=
  match word.toList with
  | ['-', '-'] => .separator
  | '-' :: '-' :: cs => .ofLong cs
  | '-' :: letter :: rest => .ofShort letter rest
  | _ => .other

/-- Whether a word is a value rather than an option. -/
def isValue (word : String) : Bool :=
  match word.toList with
  | '-' :: _ :: _ => false
  | _ => true

/-- Whether an option of the word is given by its long name. -/
def isLong (word : String) : Bool :=
  match word.toList with
  | '-' :: '-' :: _ => true
  | _ => false

/-- Reads the words of a command line. -/
def Reading.readWords (r : Reading) : List String → Except UsageError Request
  | [] => .ok (.run r.options)
  | word :: words =>
    match Word.ofString word with
    | .other => .error (.unexpected word)
    | .separator =>
      match words with
      | [] => .ok (.run r.options)
      | next :: _ => .error (.unexpected next)
    | .option (.setting s) (some value) =>
      match r.assign s value with
      | .ok r => r.readWords words
      | .error e => .error e
    | .option (.setting s) none =>
      match words with
      | [] => .error (.missingValue s)
      | value :: words =>
        if isValue value then
          match r.assign s value with
          | .ok r => r.readWords words
          | .error e => .error e
        else .error (.missingValue s)
    | .option flag value? =>
      -- A letter without a value does not mind what follows it in its word.
      if value?.isSome ∧ isLong word then .error (.needlessValue flag)
      else
        match flag with
        | .version => .ok .version
        | .help => .ok .help
        | _ =>
          match r.give flag with
          | .ok r => { r with options := { r.options with listActions := true } }.readWords words
          | .error e => .error e

/-- What the words of a command line ask for. -/
def request (words : List String) : Except UsageError Request :=
  ({} : Reading).readWords words

end CommandLine

end ClassicalPlanning
