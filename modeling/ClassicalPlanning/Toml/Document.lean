/-
Reading a TOML document.

A document is a sequence of lines: entries, headers of tables and of elements of arrays
of tables, comments and empty lines.  An entry belongs to the table of the last header
before it.
-/
import ClassicalPlanning.Toml.Scalar

namespace ClassicalPlanning.Toml

mutual

/-- A value that is nested `depth` deep, of which at most `fuel` parts are nested or in
line. -/
def readItem (fuel depth : Nat) (cs : List Char) : Option (Item × List Char) :=
  match fuel with
  | 0 => none
  | fuel + 1 =>
    match cs with
    | '[' :: rest =>
      if depth + 1 < depthBound then do
        let (items, rest) ← readItems fuel (depth + 1) rest
        return (.array items, rest)
      else none
    | '{' :: rest =>
      if depth + 1 < depthBound then
        match skipBlanks rest with
        | '}' :: rest => some (.inlineTable false [], rest)
        | rest => do
          let (entries, rest) ← readEntries fuel (depth + 1) [] rest
          return (.inlineTable false entries, rest)
      else none
    | cs =>
      match readString? cs with
      | some answer => answer.map fun (s, rest) => (.string (String.ofList s), rest)
      | none => readWord cs

/-- The items of an array that are left, and the end of the array. -/
def readItems (fuel depth : Nat) (cs : List Char) : Option (List Item × List Char) :=
  match fuel with
  | 0 => none
  | fuel + 1 =>
    match skipFiller false cs with
    | ']' :: rest => some ([], rest)
    | cs => do
      let (item, rest) ← readItem fuel depth cs
      match skipFiller false rest with
      | ']' :: rest => return ([item], rest)
      | ',' :: rest =>
        let (items, rest) ← readItems fuel depth rest
        return (item :: items, rest)
      | _ => none

/-- The entries of an inline table that are left, and the end of the table. -/
def readEntries (fuel depth : Nat) (entries : Entries) (cs : List Char) :
    Option (Entries × List Char) :=
  match fuel with
  | 0 => none
  | fuel + 1 => do
    let ((path, key), rest) ← readKey cs
    match rest with
    | '=' :: rest =>
      let (item, rest) ← readItem fuel depth (skipBlanks rest)
      let entries ← entries.addInline? path key item
      match skipBlanks rest with
      | '}' :: rest => return (entries, rest)
      | ',' :: rest => readEntries fuel depth entries rest
      | _ => none
    | _ => none

end

/-- A document under way: what has been read, and the table that entries go to. -/
structure Draft where
  /-- The entries of the document. -/
  root : Entries := []
  /-- The path of the last header. -/
  header : List String := []

/-- Enters a line that is an entry; gives the text after it. -/
def Draft.readEntry (d : Draft) (cs : List Char) : Option (Draft × List Char) := do
  let ((path, key), rest) ← readKey cs
  match rest with
  | '=' :: rest =>
    let (item, rest) ← readItem (2 * cs.length) 0 (skipBlanks rest)
    let rest ← endLine? rest
    let root ← d.root.changeAt? d.header fun table => table.addDotted? path key item
    return ({ d with root }, rest)
  | _ => none

/-- Enters a line that is the header of an element of an array of tables. -/
def Draft.readElementHeader (d : Draft) (cs : List Char) : Option (Draft × List Char) := do
  let ((path, key), rest) ← readKey cs
  match rest with
  | ']' :: ']' :: rest =>
    let rest ← endLine? rest
    let root ← d.root.changeAt? path (Entries.declareElement? key)
    return ({ root, header := path ++ [key] }, rest)
  | _ => none

/-- Enters a line that is the header of a table. -/
def Draft.readTableHeader (d : Draft) (cs : List Char) : Option (Draft × List Char) := do
  let ((path, key), rest) ← readKey cs
  match rest with
  | ']' :: rest =>
    let rest ← endLine? rest
    let root ← d.root.changeAt? path (Entries.declareTable? key)
    return ({ root, header := path ++ [key] }, rest)
  | _ => none

/-- Enters the line at the start of the text. -/
def Draft.readLine (d : Draft) (cs : List Char) : Option (Draft × List Char) :=
  match endLine? cs with
  | some rest => some (d, rest)
  | none =>
    match skipBlanks cs with
    | '[' :: '[' :: rest => d.readElementHeader rest
    | '[' :: rest => d.readTableHeader rest
    | rest => d.readEntry rest

/-- Enters the lines of the text, of which there are at most `fuel`. -/
def Draft.readLines (fuel : Nat) (d : Draft) (cs : List Char) : Option Entries :=
  match fuel with
  | 0 => if cs.isEmpty then some d.root else none
  | fuel + 1 =>
    if cs.isEmpty then some d.root
    else
      match d.readLine cs with
      | none => none
      | some (d, rest) => d.readLines fuel rest

/-- The entries of the document that a text spells.  The text may begin with a byte order
mark. -/
def ofString? (text : String) : Option Entries :=
  let cs :=
    match text.toList with
    | '\uFEFF' :: cs => cs
    | cs => cs
  Draft.readLines cs.length {} cs

end ClassicalPlanning.Toml
