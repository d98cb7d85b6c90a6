/-
Events of a search.

The library reports what it does as a list of events, each of a severity.  An event has a
message and named fields; the texts are the same whoever shows them.
-/

namespace ClassicalPlanning

/-- How much an event matters. -/
inductive Severity where
  /-- The course of a search. -/
  | info
  /-- Each node. -/
  | debug
  /-- Each look at an action. -/
  | trace
deriving DecidableEq, Repr

/-- The name of the severity. -/
def Severity.name : Severity → String
  | info => "info"
  | debug => "debug"
  | trace => "trace"

/-- The rank of the severity: what matters more ranks lower. -/
def Severity.rank : Severity → Nat
  | info => 0
  | debug => 1
  | trace => 2

/-- Whether a search that found nothing has looked at everything. -/
inductive Exhaustion where
  /-- Everything was looked at. -/
  | noPlan
  /-- A limit kept something from being looked at. -/
  | limitReached
deriving DecidableEq, Repr

/-- The name of the outcome. -/
def Exhaustion.name : Exhaustion → String
  | noPlan => "NoPlan"
  | limitReached => "LimitReached"

/-- Something that happened. -/
inductive Event where
  /-- The groundings of an action in a state were looked for. -/
  | grounded (action : String) (candidates valid : Nat)
  /-- An action was applied, which gave a state of so many facts at that level. -/
  | applied (action : String) (level facts : Nat)
  /-- A node of the level was expanded, after which so many nodes were waiting. -/
  | expanded (level frontier : Nat)
  /-- The first node of the level came up, with so many nodes waiting, itself included. -/
  | levelEntered (level frontier : Nat)
  /-- A goal node of the level came up. -/
  | goalReached (level expanded generated : Nat)
  /-- The search ended without a goal node. -/
  | exhausted (outcome : Exhaustion) (expanded generated : Nat)
deriving DecidableEq, Repr

/-- The value of a field. -/
inductive FieldValue where
  /-- A number. -/
  | number (n : Nat)
  /-- A text. -/
  | text (s : String)
deriving DecidableEq, Repr

namespace Event

/-- How much the event matters. -/
def severity : Event → Severity
  | grounded .. => .trace
  | applied .. => .debug
  | expanded .. => .debug
  | levelEntered .. => .info
  | goalReached .. => .info
  | exhausted .. => .info

/-- What happened, in words. -/
def message : Event → String
  | grounded .. => "grounded action"
  | applied .. => "applied action"
  | expanded .. => "expanded node"
  | levelEntered .. => "exploration level"
  | goalReached .. => "goal reached"
  | exhausted .. => "search finished without reaching the goal"

/-- The particulars, by name. -/
def fields : Event → List (String × FieldValue)
  | grounded action candidates valid =>
    [("action", .text action), ("candidates", .number candidates), ("valid", .number valid)]
  | applied action level facts =>
    [("action", .text action), ("level", .number level), ("facts", .number facts)]
  | expanded level frontier => [("level", .number level), ("frontier", .number frontier)]
  | levelEntered level frontier => [("level", .number level), ("frontier", .number frontier)]
  | goalReached level nodes children =>
    [("level", .number level), ("expanded", .number nodes), ("generated", .number children)]
  | exhausted outcome nodes children =>
    [("outcome", .text outcome.name), ("expanded", .number nodes), ("generated", .number children)]

/-- Whether the event matters at least as much as the given severity. -/
def matters (least : Severity) (e : Event) : Bool :=
  e.severity.rank ≤ least.rank

end Event

end ClassicalPlanning
