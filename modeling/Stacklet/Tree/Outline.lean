/-
  Trees as indented text.

  An `Outline` is a nested form with labels; `render` writes each item on
  lines of its own, four columns further in than the form it belongs to and
  with a comma behind it.
-/
import Stacklet.Tree
import Stacklet.Text.Quoted

namespace Stacklet

/-- A form to be written over several lines. -/
inductive Outline where
  | atom (text : String)
  | labelled (label : String) (value : Outline)
  /-- items between an opening and a closing text -/
  | group (opening : String) (items : List Outline) (closing : String)

namespace Outline

/-- Spaces in front of a line. -/
def indent (out : String) (level : Nat) : String := out.pushn ' ' (4 * level)

mutual

/-- Appends a form whose first line has begun and whose other lines stand
    `level` steps in. -/
def render (level : Nat) (out : String) : Outline → String
  | atom text => out ++ text
  | labelled label value => render level (out ++ label ++ ": ") value
  | group opening [] closing => out ++ opening ++ closing
  | group opening (item :: items) closing =>
    indent (renderItems (level + 1) (out ++ opening ++ "\n") (item :: items)) level ++ closing

/-- Appends items, each on lines of its own. -/
def renderItems (level : Nat) (out : String) : List Outline → String
  | [] => out
  | item :: items =>
    renderItems level (render level (indent out level) item ++ ",\n") items

end

/-- `Name(items)`. -/
def form (name : String) (items : List Outline) : Outline := group (name ++ "(") items ")"

/-- `Name \x7b label: value \x7d`. -/
def record (name : String) (items : List Outline) : Outline :=
  group (name ++ " \x7b") items "\x7d"

/-- `[items]`. -/
def list (items : List Outline) : Outline := group "[" items "]"

def quoted (s : String) : Outline := atom (Text.quoted s)

def ofNumber : Number → Outline
  | .int n => form "Int" [atom (toString n.toInt)]
  | .float x => form "Float" [atom x.text]

def ofBinOp : BinOp → Outline
  | .add => atom "Add"
  | .sub => atom "Sub"
  | .mul => atom "Mul"
  | .div => atom "Div"
  | .mod => atom "Mod"

mutual

/-- The outline of a tree: the kind of each part and its components. -/
def ofTree : Tree → Outline
  | .block body => form "Module" [list (ofTrees body)]
  | .expr value => form "Expr" [ofTree value]
  | .assign targets value =>
    record "Assign" [labelled "targets" (list (ofTargets targets)), labelled "value" (ofTree value)]
  | .name id => form "Name" [quoted id]
  | .num n => form "Num" [ofNumber n]
  | .binary left op right =>
    record "BinOp" [labelled "left" (ofTree left), labelled "op" (ofBinOp op),
      labelled "right" (ofTree right)]
  | .call callee args =>
    record "Call" [labelled "func" (ofTree callee), labelled "args" (list (ofTrees args))]

def ofTrees : List Tree → List Outline
  | [] => []
  | t :: ts => ofTree t :: ofTrees ts

def ofTarget : Target → Outline
  | .name id => form "Name" [quoted id]
  | .tuple items => form "Tuple" [list (ofTargets items)]
  | .expr t => form "Expr" [ofTree t]

def ofTargets : List Target → List Outline
  | [] => []
  | t :: ts => ofTarget t :: ofTargets ts

end

end Outline

/-- A tree over several lines. -/
def Tree.outline (t : Tree) : String := (Outline.ofTree t).render 0 ""

end Stacklet
