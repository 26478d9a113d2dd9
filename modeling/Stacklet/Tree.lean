/-
  Syntax trees.

  Statements and expressions share one type. A tree read from source is a
  `block` of statements over expressions; trees built by hand may nest any
  kind in any other, and every function on trees is defined for them too.
-/
import Stacklet.Number

namespace Stacklet

/-- A binary operator. -/
inductive BinOp where
  | add
  | sub
  | mul
  | div
  | mod
  deriving DecidableEq, Repr

def BinOp.symbol : BinOp → String
  | add => "+"
  | sub => "-"
  | mul => "*"
  | div => "/"
  | mod => "%"

mutual

/-- The left-hand side of an assignment. -/
inductive Target where
  | name (id : String)
  /-- several targets, separated by commas -/
  | tuple (items : List Target)
  /-- any other expression -/
  | expr (tree : Tree)

/-- A syntax tree. -/
inductive Tree where
  /-- statements in order -/
  | block (body : List Tree)
  /-- an expression as a statement -/
  | expr (value : Tree)
  /-- `target = value`, or `target = target = value` -/
  | assign (targets : List Target) (value : Tree)
  | name (id : String)
  | num (n : Number)
  /-- `left op right` -/
  | binary (left : Tree) (op : BinOp) (right : Tree)
  /-- `callee(args)` -/
  | call (callee : Tree) (args : List Tree)

end

/-- An expression in target position: a name, or something to be rejected
    later. -/
def Target.ofTree : Tree → Target
  | .name id => .name id
  | t => .expr t

/-- The target that a comma-separated list stands for. -/
def Target.ofList : List Tree → Target
  | [t] => .ofTree t
  | ts => .tuple (ts.map .ofTree)

/-- What a tree is, in words. -/
def Tree.kind : Tree → String
  | block _ => "module"
  | expr _ => "expression statement"
  | assign _ _ => "assignment"
  | name _ => "name"
  | num (.int _) => "integer literal"
  | num (.float _) => "float literal"
  | binary _ _ _ => "binary operation"
  | call _ _ => "call"

/-- What a target is, in words. -/
def Target.describe : Target → String
  | name id => "name '" ++ id ++ "'"
  | tuple items => "a tuple of " ++ toString items.length ++ " targets"
  | expr t => "a " ++ t.kind

end Stacklet
