/-
Runs of the command.

A run writes the domain and the problem if it is asked to, in this order, then either
lists the groundings of the initial state or searches for a plan, with the limits of the
settings file, of the environment and of the options, of which the later count more.
What a run needs of the files of the system is the class `FileAccess`; everything else is
decided here.
-/
import ClassicalPlanning.CommandLine.Options
import ClassicalPlanning.Json.Codec
import ClassicalPlanning.Json.Printer
import ClassicalPlanning.Search.BreadthFirst
import ClassicalPlanning.Settings.File
import ClassicalPlanning.Text.Message
import ClassicalPlanning.Text.PlanText

namespace ClassicalPlanning

/-- The plan in the given form. -/
def Plan.render (plan : Plan) : Plan.Format → String
  | .text => plan.text
  | .json => plan.toJson.toPrettyString

namespace CommandLine

/-- Access to files by their names. -/
class FileAccess (m : Type → Type) where
  /-- The text of a file; nothing if it cannot be read or is no text. -/
  readText? : String → m (Option String)
  /-- Makes a text the content of a file; tells whether that could be done. -/
  writeText : String → String → m Bool

/-- What a run leaves behind, besides the files it wrote. -/
structure Outcome where
  /-- The exit code. -/
  exitCode : UInt32 := 0
  /-- The output. -/
  output : String := ""
  /-- A remark for whoever started the run. -/
  remark : Option String := none
deriving DecidableEq, Repr

namespace Outcome

/-- The outcome of a run that could not be carried through. -/
def failure (remark : String) : Outcome :=
  { exitCode := 1, remark := some remark }

/-- The outcome of a command line that is refused. -/
def usage : Outcome :=
  { exitCode := 2, remark := some "the command line is malformed; see --help" }

/-- The version of the command. -/
def version : Outcome :=
  { output := "strips-plan 0.1.0\n" }

/-- How the command is used. -/
def help : Outcome :=
  { output :=
      "Breadth-first planner for the crane yard\n\n" ++
      "Usage: strips-plan [OPTIONS]\n\n" ++
      "Options:\n" ++
      "      --goal <GOAL>            top-of-p2 (default) or rearrange\n" ++
      "  -c, --config <FILE>          search settings (TOML)\n" ++
      "      --domain-out <FILE>      write the PDDL domain to this file\n" ++
      "      --problem-out <FILE>     write the PDDL problem to this file\n" ++
      "  -p, --plan-out <FILE>        write the plan to this file\n" ++
      "      --format <FORMAT>        text (default) or json\n" ++
      "      --list-actions           list the groundings of the initial state\n" ++
      "      --max-level <N>          do not expand nodes of this level\n" ++
      "      --max-expansions <N>     stop after so many expansions\n" ++
      "  -h, --help                   show this text\n" ++
      "  -V, --version                show the version\n" }

/-- The outcome of a fault of the planning problem. -/
def fault (f : Fault) : Outcome :=
  .failure f.message

/-- The outcome of settings that cannot be had. -/
def settingsFault (f : SettingsFault) : Outcome :=
  .failure (f.message?.getD "the settings cannot be loaded")

end Outcome

/-- The groundings of the initial state, action by action. -/
def listing (p : Problem) : String :=
  String.join (((Node.root p).survey p.domain.actions).map fun (a, gs) =>
    s!"{a.name} ({gs.length} groundings)\n" ++
      String.join (gs.map fun g => "  " ++ " ".intercalate (g.matched.map Literal.pddl) ++ "\n"))

/-- The limits of a run: those of the settings file, given its text if it is asked for,
overridden by the environment and then by the options. -/
def Options.limits (o : Options) (config? : Option (Option String)) (env : Environment) :
    Except SettingsFault SearchLimits := do
  let base ←
    match config? with
    | some text? => SearchLimits.ofFile text?
    | none => .ok {}
  let limits ← base.override env
  return { limits with
    maxLevel := o.maxLevel.or limits.maxLevel
    maxExpansions := o.maxExpansions.or limits.maxExpansions }

/-- What is said of a search that found no plan. -/
def exhaustionOutcome (goal : CraneYard.Goal) (stats : Search.Stats) : Exhaustion → Outcome
  | .noPlan => { exitCode := 1, output := s!"No plan exists for goal {goal.label}\n" }
  | .limitReached => {
      exitCode := 2
      output := s!"Search limit reached after {stats.expanded} expansions " ++
        s!"(deepest level {stats.depth})\n" }

variable {m : Type → Type} [Monad m] [FileAccess m]

/-- Writes a text to a file if there is one to write to; tells whether that went well. -/
def writeOptional (file? : Option String) (text : String) : m Bool :=
  match file? with
  | some file => FileAccess.writeText file text
  | none => pure true

/-- Delivers a plan: to a file, or to the output with a line ending. -/
def deliver (o : Options) (plan : Plan) : m Outcome := do
  let text := plan.render o.format
  match o.planOut with
  | none => return { output := text ++ "\n" }
  | some file =>
    if ← FileAccess.writeText file text then return {}
    else return .failure "the plan cannot be written"

/-- Searches for a plan, for at most `fuel` turns; there is no outcome if that is not
enough. -/
def searchAndDeliver (o : Options) (p : Problem) (limits : SearchLimits) (fuel : Nat) :
    m (Option Outcome) := do
  match p.search? limits fuel with
  | none => return none
  | some (.error f) => return some (.fault f)
  | some (.ok report) =>
    match report.outcome with
    | .found node => return some (← deliver o node.plan)
    | .exhausted outcome => return some (exhaustionOutcome o.goal report.stats outcome)

/-- Carries out a run with the given options. -/
def execute (env : Environment) (fuel : Nat) (o : Options) : m (Option Outcome) := do
  match CraneYard.problem o.goal with
  | .error f => return some (.fault f)
  | .ok p =>
    if !(← writeOptional o.domainOut p.domain.pddl) then
      return some (.failure "the domain cannot be written")
    else if !(← writeOptional o.problemOut p.pddl) then
      return some (.failure "the problem cannot be written")
    else if o.listActions then
      return some { output := listing p }
    else
      let config? ←
        match o.config with
        | some file => some <$> FileAccess.readText? file
        | none => pure none
      match o.limits config? env with
      | .error f => return some (.settingsFault f)
      | .ok limits => searchAndDeliver o p limits fuel

/-- Carries out a command line. -/
def run (env : Environment) (fuel : Nat) (words : List String) : m (Option Outcome) :=
  match request words with
  | .error _ => return some .usage
  | .ok .version => return some .version
  | .ok .help => return some .help
  | .ok (.run o) => execute env fuel o

end CommandLine

end ClassicalPlanning
