/-
TOML documents.

The tree that a document describes.  How a table came to be decides what may be added to
it later, so a table carries that along: implied by the header of a table below it, begun
by a dotted key, or declared by a header of its own.
-/

namespace ClassicalPlanning.Toml

/-- How a table came to be. -/
inductive Standing where
  /-- It is part of the path of another header. -/
  | implied
  /-- It is part of a dotted key. -/
  | dotted
  /-- It has a header of its own. -/
  | declared
deriving DecidableEq, Repr

/-- What a key stands for. -/
inductive Item where
  /-- A string. -/
  | string (s : String)
  /-- An integer. -/
  | integer (n : Int)
  /-- A floating-point number, as it is written. -/
  | float (lexeme : List Char)
  /-- A truth value. -/
  | boolean (b : Bool)
  /-- A date, a time or both, as it is written. -/
  | dateTime (lexeme : List Char)
  /-- An array of values. -/
  | array (items : List Item)
  /-- A table written in one place, or by dotted keys inside such a table. -/
  | inlineTable (dotted : Bool) (entries : List (String × Item))
  /-- A table of the document. -/
  | table (standing : Standing) (entries : List (String × Item))
  /-- An array of tables, in the order of their headers. -/
  | tables (elements : List (List (String × Item)))

/-- The entries of a table, each key once. -/
abbrev Entries := List (String × Item)

namespace Entries

/-- What the key stands for. -/
def get? (entries : Entries) (key : String) : Option Item :=
  entries.lookup key

/-- The entries with another item under a key that occurs in them. -/
def replace (entries : Entries) (key : String) (item : Item) : Entries :=
  entries.map fun (k, i) => if k = key then (k, item) else (k, i)

/-- The entries with one more, if the key is new. -/
def add? (entries : Entries) (key : String) (item : Item) : Option Entries :=
  match entries.get? key with
  | none => some (entries ++ [(key, item)])
  | some _ => none

/-- The entries of an inline table with one more, under a dotted key.  A dotted key may
only pass through tables that dotted keys began. -/
def addInline? (entries : Entries) (path : List String) (key : String) (item : Item) :
    Option Entries :=
  match path with
  | [] => entries.add? key item
  | p :: path =>
    match entries.get? p with
    | none => do
      let inner ← addInline? [] path key item
      return entries ++ [(p, .inlineTable true inner)]
    | some (.inlineTable true inner) => do
      let inner ← addInline? inner path key item
      return entries.replace p (.inlineTable true inner)
    | some _ => none

/-- Changes the last element of an array of tables. -/
def changeLast? (f : Entries → Option Entries) (elements : List Entries) : Option (List Entries) :=
  match elements.reverse with
  | [] => none
  | last :: earlier => (f last).map fun last => (last :: earlier).reverse

/-- The entries with one more, under a dotted key.  A dotted key begins the tables that
are not there, and may pass through those that were begun so, through those that a header
implied and through the last of an array of tables; the table that it ends in, if it has
passed through any, must be one that dotted keys began. -/
def addDotted? (entries : Entries) (path : List String) (key : String) (item : Item)
    (mayEnd : Bool := true) : Option Entries :=
  match path with
  | [] => if mayEnd then entries.add? key item else none
  | p :: path =>
    match entries.get? p with
    | none => do
      let inner ← addDotted? [] path key item
      return entries ++ [(p, .table .dotted inner)]
    | some (.table .dotted inner) => do
      let inner ← addDotted? inner path key item
      return entries.replace p (.table .dotted inner)
    | some (.table .implied inner) => do
      let inner ← addDotted? inner path key item false
      return entries.replace p (.table .implied inner)
    | some (.tables elements) => do
      let elements ← changeLast? (fun last => addDotted? last path key item false) elements
      return entries.replace p (.tables elements)
    | some _ => none

/-- Changes the table that a header names, where tables that are not there are implied
and an array of tables stands for its last element. -/
def changeAt? (entries : Entries) (path : List String) (f : Entries → Option Entries) :
    Option Entries :=
  match path with
  | [] => f entries
  | p :: path =>
    match entries.get? p with
    | none => do
      let inner ← changeAt? [] path f
      return entries ++ [(p, .table .implied inner)]
    | some (.table standing inner) => do
      let inner ← changeAt? inner path f
      return entries.replace p (.table standing inner)
    | some (.tables elements) => do
      let elements ← changeLast? (fun last => changeAt? last path f) elements
      return entries.replace p (.tables elements)
    | some _ => none

/-- The entries with a table declared under the key: a new one, or one that was only
implied. -/
def declareTable? (key : String) (entries : Entries) : Option Entries :=
  match entries.get? key with
  | none => some (entries ++ [(key, .table .declared [])])
  | some (.table .implied inner) => some (entries.replace key (.table .declared inner))
  | some _ => none

/-- The entries with one more element in the array of tables under the key. -/
def declareElement? (key : String) (entries : Entries) : Option Entries :=
  match entries.get? key with
  | none => some (entries ++ [(key, .tables [[]])])
  | some (.tables elements) => some (entries.replace key (.tables (elements ++ [[]])))
  | some _ => none

end Entries

end ClassicalPlanning.Toml
