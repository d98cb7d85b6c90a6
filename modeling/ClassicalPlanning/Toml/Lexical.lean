/-
The words of TOML: blanks, comments, strings and keys.

Each reader takes the characters that are left and gives what it has read with the
characters that are left then, or nothing if the text is malformed.
-/

namespace ClassicalPlanning.Toml

/-- A blank within a line. -/
def isBlank (c : Char) : Bool :=
  c == ' ' || c == '\t'

/-- A character of a comment or a string: any but the control characters, of which only
the tab is allowed. -/
def isText (c : Char) : Bool :=
  c == '\t' || (0x20 ≤ c.toNat && c.toNat ≠ 0x7F)

/-- The text without the blanks at its start. -/
def skipBlanks (cs : List Char) : List Char :=
  cs.dropWhile isBlank

/-- The text after the line ending at its start. -/
def newline? : List Char → Option (List Char)
  | '\n' :: rest => some rest
  | '\r' :: '\n' :: rest => some rest
  | _ => none

/-- The text after the end of the line, before which blanks and a comment may stand. -/
def endLine? (cs : List Char) : Option (List Char) :=
  let rest :=
    match skipBlanks cs with
    | '#' :: rest => rest.dropWhile isText
    | rest => rest
  if rest.isEmpty then some [] else newline? rest

/-- The text without the blanks, line endings and comments at its start. -/
def skipFiller (inComment : Bool) : List Char → List Char
  | [] => []
  | '\n' :: cs => skipFiller false cs
  | '\r' :: '\n' :: cs => skipFiller false cs
  | c :: cs =>
    if (inComment && isText c) || isBlank c then skipFiller inComment cs
    else if c == '#' then skipFiller true cs
    else c :: cs

/-- The value of a hexadecimal digit, in either case. -/
def hexValue? (c : Char) : Option Nat :=
  if c.isDigit then some (c.toNat - '0'.toNat)
  else if 'a' ≤ c ∧ c ≤ 'f' then some (c.toNat - 'a'.toNat + 10)
  else if 'A' ≤ c ∧ c ≤ 'F' then some (c.toNat - 'A'.toNat + 10)
  else none

/-- The character whose code the hexadecimal digits spell. -/
def scalar? (digits : List Char) : Option Char := do
  let values ← digits.mapM hexValue?
  let code := values.foldl (fun n v => 16 * n + v) 0
  if code < 0xD800 ∨ (0xE000 ≤ code ∧ code < 0x110000) then some (Char.ofNat code) else none

/-- The character that a letter escapes. -/
def escaped? (c : Char) : Option Char :=
  match c with
  | '"' => some '"'
  | '\\' => some '\\'
  | 'b' => some '\x08'
  | 'f' => some '\x0c'
  | 'n' => some '\n'
  | 'r' => some '\r'
  | 't' => some '\t'
  | _ => none

/-- Puts a character before a string that was read. -/
def consChar (c : Char) : Option (List Char × List Char) → Option (List Char × List Char) :=
  Option.map fun (cs, rest) => (c :: cs, rest)

/-- A string on one line up to its closing quote, with escapes. -/
def readBasic : List Char → Option (List Char × List Char)
  | [] => none
  | '"' :: rest => some ([], rest)
  | '\\' :: 'u' :: a :: b :: c :: d :: rest => do consChar (← scalar? [a, b, c, d]) (readBasic rest)
  | '\\' :: 'U' :: a :: b :: c :: d :: e :: f :: g :: h :: rest => do
    consChar (← scalar? [a, b, c, d, e, f, g, h]) (readBasic rest)
  | '\\' :: c :: rest => do consChar (← escaped? c) (readBasic rest)
  | c :: rest => if isText c && c != '\\' then consChar c (readBasic rest) else none

/-- A string on one line up to its closing quote, without escapes. -/
def readLiteral : List Char → Option (List Char × List Char)
  | [] => none
  | '\'' :: rest => some ([], rest)
  | c :: rest => if isText c then consChar c (readLiteral rest) else none

/-- The end of a string over several lines, if the text begins with it: three quotes,
before which one or two more may stand that belong to the string. -/
def closing? (quote : Char) (cs : List Char) : Option (Option (List Char × List Char)) :=
  let run := (cs.takeWhile (· == quote)).length
  if run < 3 then none
  else if run ≤ 5 then some (some (List.replicate (run - 3) quote, cs.drop run))
  else some none

/-- Whether nothing but blanks stands before the end of the line. -/
def isLineEnding (cs : List Char) : Bool :=
  (newline? (skipBlanks cs)).isSome

/-- A string over several lines up to its closing quotes, with escapes.  A backslash at the
end of a line takes away the blanks and line endings that follow, which is what is
happening while `skipping`. -/
def readBasicLines (skipping : Bool) : List Char → Option (List Char × List Char)
  | [] => none
  | '\\' :: 'u' :: a :: b :: c :: d :: rest => do
    consChar (← scalar? [a, b, c, d]) (readBasicLines false rest)
  | '\\' :: 'U' :: a :: b :: c :: d :: e :: f :: g :: h :: rest => do
    consChar (← scalar? [a, b, c, d, e, f, g, h]) (readBasicLines false rest)
  | '\\' :: c :: rest =>
    if isLineEnding (c :: rest) then readBasicLines true (c :: rest)
    else do consChar (← escaped? c) (readBasicLines false rest)
  | '\r' :: '\n' :: rest =>
    if skipping then readBasicLines true rest
    else consChar '\n' (readBasicLines false rest)
  | c :: rest =>
    if skipping && (isBlank c || c == '\n') then readBasicLines true rest
    else
      match closing? '"' (c :: rest) with
      | some answer => answer
      | none =>
        if (isText c && c != '\\') || c == '\n' then consChar c (readBasicLines false rest)
        else none

/-- A string over several lines up to its closing quotes, without escapes. -/
def readLiteralLines : List Char → Option (List Char × List Char)
  | [] => none
  | '\r' :: '\n' :: rest => consChar '\n' (readLiteralLines rest)
  | c :: rest =>
    match closing? '\'' (c :: rest) with
    | some answer => answer
    | none => if isText c || c == '\n' then consChar c (readLiteralLines rest) else none

/-- The text without a line ending at its start. -/
def skipNewline (cs : List Char) : List Char :=
  (newline? cs).getD cs

/-- A string in any of the four forms, if the text begins with one. -/
def readString? : List Char → Option (Option (List Char × List Char))
  | '"' :: '"' :: '"' :: rest => some (readBasicLines false (skipNewline rest))
  | '"' :: rest => some (readBasic rest)
  | '\'' :: '\'' :: '\'' :: rest => some (readLiteralLines (skipNewline rest))
  | '\'' :: rest => some (readLiteral rest)
  | _ => none

/-- A character of a key that is not between quotes. -/
def isKeyChar (c : Char) : Bool :=
  c.isAlphanum || c == '_' || c == '-'

/-- One part of a key. -/
def readKeyPart : List Char → Option (String × List Char)
  | '"' :: rest => (readBasic rest).map fun (cs, rest) => (String.ofList cs, rest)
  | '\'' :: rest => (readLiteral rest).map fun (cs, rest) => (String.ofList cs, rest)
  | cs =>
    match cs.takeWhile isKeyChar with
    | [] => none
    | part => some (String.ofList part, cs.dropWhile isKeyChar)

/-- The parts of a key, between points, of which there are at most `fuel`. -/
def readKeyParts (fuel : Nat) (cs : List Char) : Option (List String × List Char) :=
  match fuel with
  | 0 => none
  | fuel + 1 => do
    let (part, rest) ← readKeyPart (skipBlanks cs)
    match skipBlanks rest with
    | '.' :: rest => do
      let (parts, rest) ← readKeyParts fuel rest
      return (part :: parts, rest)
    | rest => return ([part], rest)

/-- The nesting that a document may not reach, be it of arrays and inline tables or of the
parts of a key. -/
def depthBound : Nat := 80

/-- A key: the parts before the last one, and the last one. -/
def readKey (cs : List Char) : Option ((List String × String) × List Char) := do
  let (parts, rest) ← readKeyParts (depthBound - 1) cs
  return ((parts.dropLast, ← parts.getLast?), rest)

end ClassicalPlanning.Toml
