/-
  The values that instructions load.

  Two constants count as the same if their `key`s are equal: an integer and a
  double never do, two doubles do if they are equal numbers or both NaN.
-/
import Stacklet.Number

namespace Stacklet

/-- A value loaded by an instruction. -/
inductive Constant where
  /-- what a unit returns -/
  | none
  | int (n : Int64)
  | float (x : Binary64)
  deriving DecidableEq, Hashable, Repr

namespace Constant

/-- The constant of a literal. -/
def ofNumber : Number → Constant
  | .int n => int n
  | .float x => float x

/-- Constants with one key share a place in a pool. -/
def key : Constant → Constant
  | float x => float x.canonical
  | c => c

/-- How listings show a constant. -/
def text : Constant → String
  | none => "None"
  | int n => toString n.toInt
  | float x => x.text

end Constant

end Stacklet
