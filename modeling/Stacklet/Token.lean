/-
  The tokens of source text and where they stand.

  `Token.text` is what a message shows for a token, `Token.dump` what a token
  dump shows.
-/
import Stacklet.Number
import Stacklet.Text.Quoted

namespace Stacklet

/-! ## Positions -/

/-- A place in a text: line and column, both counted from one, columns in
    characters. -/
structure Position where
  line : Nat
  col : Nat
  deriving DecidableEq, Repr

namespace Position

/-- Where a text begins. -/
def start : Position := ⟨1, 1⟩

/-- The position behind a character: a line feed opens the next line. -/
def past (p : Position) (c : Char) : Position :=
  if c = '\n' then ⟨p.line + 1, 1⟩ else ⟨p.line, p.col + 1⟩

/-- The position behind a text. -/
def pastAll (p : Position) (cs : List Char) : Position := cs.foldl past p

@[simp] theorem pastAll_nil (p : Position) : p.pastAll [] = p := rfl

@[simp] theorem pastAll_cons (p : Position) (c : Char) (cs : List Char) :
    p.pastAll (c :: cs) = (p.past c).pastAll cs := rfl

theorem pastAll_append (p : Position) (cs ds : List Char) :
    p.pastAll (cs ++ ds) = (p.pastAll cs).pastAll ds := List.foldl_append

/-- `line:col`. -/
def text (p : Position) : String := toString p.line ++ ":" ++ toString p.col

end Position

/-! ## Tokens -/

/-- A token of the language. -/
inductive Token where
  | integer (n : Int64)
  | float (x : Binary64)
  | ident (name : String)
  | plus
  | minus
  | star
  | slash
  | percent
  | assign
  | openParen
  | closeParen
  | comma
  | semicolon
  /-- a line end outside parentheses -/
  | newline
  | endOfInput
  deriving DecidableEq, Repr

namespace Token

/-- How messages show a token. -/
def text : Token → String
  | integer n => toString n.toInt
  | float x => x.text
  | ident name => name
  | plus => "+"
  | minus => "-"
  | star => "*"
  | slash => "/"
  | percent => "%"
  | assign => "="
  | openParen => "("
  | closeParen => ")"
  | comma => ","
  | semicolon => ";"
  | newline => "newline"
  | endOfInput => "end of input"

/-- The name of a token's kind. -/
def kind : Token → String
  | integer _ => "Integer"
  | float _ => "Float"
  | ident _ => "Ident"
  | plus => "Plus"
  | minus => "Minus"
  | star => "Star"
  | slash => "Slash"
  | percent => "Percent"
  | assign => "Assign"
  | openParen => "LParen"
  | closeParen => "RParen"
  | comma => "Comma"
  | semicolon => "Semicolon"
  | newline => "Newline"
  | endOfInput => "Eof"

/-- The kind, with the value in parentheses if the token has one. -/
def dump (t : Token) : String :=
  match t with
  | integer n => t.kind ++ "(" ++ toString n.toInt ++ ")"
  | float x => t.kind ++ "(" ++ x.text ++ ")"
  | ident name => t.kind ++ "(" ++ Text.quoted name ++ ")"
  | _ => t.kind

/-- Separates statements. -/
def isSeparator : Token → Bool
  | newline | semicolon => true
  | _ => false

/-- How many parentheses are open behind the token, if `depth` are open in
    front of it. -/
def depthPast (t : Token) (depth : Nat) : Nat :=
  match t with
  | openParen => depth + 1
  | closeParen => depth - 1
  | _ => depth

end Token

/-- A token and the position of its first character. -/
structure PlacedToken where
  token : Token
  position : Position
  deriving DecidableEq, Repr

end Stacklet
