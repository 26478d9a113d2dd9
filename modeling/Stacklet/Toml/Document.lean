/-
  Whole TOML documents.

  Values nest up to `maxDepth` arrays and tables in braces, and the recursion
  runs on that bound; keys have up to `maxDepth` parts. The loops over
  elements and lines take at least one character in every round, so the length
  of the text bounds them.

  * `Toml.ofString?` reads a document, and is nothing if the text is no
    document or defines a key twice.
-/
import Stacklet.Toml.Scalar

namespace Stacklet.Toml

/-- How deeply values nest, and how many parts a key has. -/
def maxDepth : Nat := 79

/-! ## Layout -/

/-- The text behind a comment that stands in front. -/
def skipComment : List Char → List Char
  | '#' :: rest => rest.dropWhile isText
  | cs => cs

/-- The text behind blanks, line ends and comments. -/
def skipLayout : List Char → List Char
  | [] => []
  | '\r' :: '\n' :: rest => skipLayout rest
  | c :: rest =>
    if isGap c || c == '\n' then skipLayout rest
    else if c == '#' then skipLayout (rest.dropWhile isText)
    else c :: rest
termination_by cs => cs.length
decreasing_by
  all_goals
    have := length_dropWhile_le isText rest
    simp only [List.length_cons]
    omega

/-- The text behind the end of a line, in front of which a comment may stand. -/
def endLine? (cs : List Char) : Option (List Char) :=
  match skipComment (cs.dropWhile isGap) with
  | [] => some []
  | cs => lineEnd? cs

/-! ## Keys -/

/-- May stand in a key without quotes. -/
def isKeyChar (c : Char) : Bool := c.isAlphanum || c == '_' || c == '-'

/-- One part of a key. -/
def keyPart? : Reader String := fun cs =>
  match cs with
  | '"' :: rest => basic "" rest
  | '\'' :: rest => literal "" rest
  | cs =>
    match cs.takeWhile isKeyChar with
    | [] => none
    | part => some (String.ofList part, cs.dropWhile isKeyChar)

/-- A key of at most `room` parts: those before the last one, and the last. -/
def keyIn : (room : Nat) → Reader (List String × String)
  | 0, _ => none
  | room + 1, cs =>
    match keyPart? (cs.dropWhile isGap) with
    | none => none
    | some (part, rest) =>
      match rest.dropWhile isGap with
      | '.' :: rest => (keyIn room rest).map fun ((path, key), rest) => ((part :: path, key), rest)
      | rest => some (([], part), rest)

def key? : Reader (List String × String) := keyIn maxDepth

/-- A key and its value, with an equals sign between them. -/
def pair? (value : Reader Toml) : Reader ((List String × String) × Toml) := fun cs =>
  match key? cs with
  | some (key, '=' :: rest) =>
    (value (rest.dropWhile isGap)).map fun (v, rest) => ((key, v), rest)
  | _ => none

/-! ## Values -/

/-- The rest of an array, behind the items found before. -/
def arrayFrom (value : Reader Toml) (found : Array Toml) : (rounds : Nat) → Reader Toml
  | 0, _ => none
  | rounds + 1, cs =>
    match skipLayout cs with
    | ']' :: rest => some (.array found.toList, rest)
    | cs =>
      match value cs with
      | none => none
      | some (v, rest) =>
        match skipLayout rest with
        | ',' :: rest => arrayFrom value (found.push v) rounds rest
        | ']' :: rest => some (.array (found.push v).toList, rest)
        | _ => none

/-- The pairs of a table in braces, at least one, behind those found before. -/
def inlineFrom (value : Reader Toml) (found : Entries) : (rounds : Nat) → Reader Toml
  | 0, _ => none
  | rounds + 1, cs =>
    match pair? value cs with
    | none => none
    | some (((path, key), v), rest) =>
      match put path key v found with
      | none => none
      | some found =>
        match rest.dropWhile isGap with
        | ',' :: rest => inlineFrom value found rounds rest
        | '\x7d' :: rest => some (.inline found, rest)
        | _ => none

/-- A value in which `room` more levels may nest. -/
def valueWithin : (room : Nat) → Reader Toml
  | 0, cs => scalar? cs
  | room + 1, cs =>
    match cs with
    | '[' :: rest => arrayFrom (valueWithin room) #[] cs.length rest
    | '\x7b' :: rest =>
      match rest.dropWhile isGap with
      | '\x7d' :: rest => some (.inline [], rest)
      | rest => inlineFrom (valueWithin room) [] cs.length rest
    | cs => scalar? cs

def value? : Reader Toml := valueWithin maxDepth

/-! ## Lines -/

/-- A header: the table that the lines behind it define, with all tables. -/
def header? (entries : Entries) (cs : List Char) :
    Option ((List String × Entries) × List Char) :=
  match cs with
  | '[' :: '[' :: rest =>
    match key? rest with
    | some ((path, key), ']' :: ']' :: rest) =>
      (openItem path key entries).map fun entries => ((path ++ [key], entries), rest)
    | _ => none
  | '[' :: rest =>
    match key? rest with
    | some ((path, key), ']' :: rest) =>
      (openTable path key entries).map fun entries => ((path ++ [key], entries), rest)
    | _ => none
  | _ => none

/-- Reads lines; `current` is the table that the last header opened. -/
def linesFrom (current : List String) (entries : Entries) :
    (rounds : Nat) → List Char → Option Entries
  | 0, _ => none
  | rounds + 1, cs =>
    match cs.dropWhile isGap with
    | [] => some entries
    | '[' :: rest =>
      match header? entries ('[' :: rest) with
      | none => none
      | some ((current, entries), rest) =>
        match endLine? rest with
        | none => none
        | some rest => linesFrom current entries rounds rest
    | c :: rest =>
      if c == '#' || c == '\n' || c == '\r' then
        match endLine? (c :: rest) with
        | none => none
        | some rest => linesFrom current entries rounds rest
      else
        match pair? value? (c :: rest) with
        | none => none
        | some (((path, key), v), rest) =>
          match within false (fun _ inner => put path key v inner) .header current entries with
          | none => none
          | some entries =>
            match endLine? rest with
            | none => none
            | some rest => linesFrom current entries rounds rest

/-- The text behind a byte order mark. -/
def skipMark : List Char → List Char
  | '\ufeff' :: rest => rest
  | cs => cs

/-- The table that a document describes. -/
def ofString? (text : String) : Option Entries :=
  let cs := skipMark text.toList
  linesFrom [] [] (cs.length + 1) cs

end Stacklet.Toml
