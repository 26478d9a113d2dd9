/-
  The grammar of the language.

      block       := separator* [statement (separator+ statement)* separator*]
      separator   := line end | ';'
      statement   := (list '=')* expression
      list        := expression (',' expression)*
      expression  := product (('+' | '-') product)*
      product     := application (('*' | '/' | '%') application)*
      application := atom ('(' [expression (',' expression)* [',']] ')')*
      atom        := integer | float | identifier | '(' expression ')'

  Chains are loops and may have any length; an expression stands inside at
  most `maxNesting` expressions, itself included, and that bound is what the
  recursion through parentheses runs on.

  * `Tree.ofStream` reads a block and leaves the stream behind it;
  * `Tree.ofTokens`, `Tree.ofSource` start from tokens and from text.
-/
import Stacklet.Rule
import Stacklet.Scanner
import Stacklet.Tree

namespace Stacklet

open Rule

/-- How deeply expressions nest, each counting itself. -/
def maxNesting : Nat := 200

namespace Grammar

/-- The operators between products. -/
def sumOperator : Token → Option BinOp
  | .plus => some .add
  | .minus => some .sub
  | _ => none

/-- The operators between applications. -/
def productOperator : Token → Option BinOp
  | .star => some .mul
  | .slash => some .div
  | .percent => some .mod
  | _ => none

/-- Operands with operators between them, grouped to the left. -/
def chain (operator : Token → Option BinOp) (operand : Rule Tree) : Rule Tree := do
  let first ← operand
  loop operator (fun op left => return .binary left op (← operand)) first

/-- A closing parenthesis. -/
def closing (context : Closing) : Rule Unit := do
  match ← peek with
  | .closeParen => advance
  | found => fail (.expectedClosing context found)

/-- Arguments up to the closing parenthesis, which is left; a comma may follow
    the last one. -/
def arguments (expression : Rule Tree) : Rule (List Tree) := do
  if (← peek) = .closeParen then
    return []
  let first ← expression
  let all ← loop (only .comma) (fun _ found => do
    if (← peek) = .closeParen then
      return found
    else
      return found.push (← expression)) #[first]
  return all.toList

/-- A literal, a name, or an expression in parentheses. -/
def atom (expression : Rule Tree) : Rule Tree := do
  match ← peek with
  | .integer n =>
    advance
    return .num (.int n)
  | .float x =>
    advance
    return .num (.float x)
  | .ident id =>
    advance
    return .name id
  | .openParen =>
    advance
    let inner ← expression
    closing .group
    return inner
  | found => fail (.expectedExpression found)

/-- An atom with any number of argument lists. -/
def application (expression : Rule Tree) : Rule Tree := do
  let callee ← atom expression
  loop (only .openParen) (fun _ callee => do
    let args ← arguments expression
    closing .arguments
    return .call callee args) callee

def product (expression : Rule Tree) : Rule Tree := chain productOperator (application expression)

def sum (expression : Rule Tree) : Rule Tree := chain sumOperator (product expression)

/-- An expression that may nest up to `room` expressions, itself included. -/
def expressionIn : (room : Nat) → Rule Tree
  | 0 => fail (.nestedTooDeep maxNesting)
  | room + 1 => sum (expressionIn room)

def expression : Rule Tree := expressionIn maxNesting

/-- An expression, or an assignment whose targets are the lists before the
    last equals sign. -/
def statement : Rule Tree := do
  let lists ← separated .assign (separated .comma expression)
  match lists.reverse with
  | [value] :: [] => return .expr value
  | [value] :: targets => return .assign (targets.reverse.map .ofList) value
  | _ => fail .tupleValue

/-- A line end or a semicolon. -/
def separator (t : Token) : Option Unit := if t.isSeparator then some () else none

def skipSeparators : Rule Unit := loop separator (fun _ _ => return ()) ()

/-- Statements up to the end of input. -/
def block : Rule Tree := do
  skipSeparators
  if (← peek) = .endOfInput then
    return .block []
  let first ← statement
  let body ← loop separator (fun _ found => do
    skipSeparators
    if (← peek) = .endOfInput then
      return found
    else
      return found.push (← statement)) #[first]
  match ← peek with
  | .endOfInput => return .block body.toList
  | found => fail (.expectedEndOfStatement found)

end Grammar

/-! ## Reading trees -/

/-- Reads a block; the stream that is left can be read on, also after an
    error. -/
def Tree.ofStream (s : TokenStream) : Outcome Tree := Grammar.block.read s

/-- The tree of a token sequence. -/
def Tree.ofTokens (tokens : List PlacedToken) : Except ParseError Tree :=
  (Tree.ofStream (.ofTokens tokens)).1

/-- Why a text has no tree. -/
inductive SourceError where
  | scan (e : ScanError)
  | parse (e : ParseError)
  deriving DecidableEq, Repr

def SourceError.message : SourceError → String
  | scan e => "lexer error: " ++ e.message
  | parse e => "parse error: " ++ e.message

/-- The tree of a source text. -/
def Tree.ofSource (source : String) : Except SourceError Tree :=
  match tokensOf source with
  | .error e => .error (.scan e)
  | .ok tokens =>
    match Tree.ofTokens tokens with
    | .error e => .error (.parse e)
    | .ok t => .ok t

end Stacklet
