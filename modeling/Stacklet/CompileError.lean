/-
  Why a tree has no code.
-/
import Stacklet.Instr.Height
import Stacklet.Tree

namespace Stacklet

/-- An error that ends a compilation. -/
inductive CompileError where
  /-- an operator other than addition -/
  | unsupportedOperator (op : BinOp)
  /-- anything but one plain name on the left of an assignment -/
  | unsupportedTarget (count : Nat) (reason : String)
  /-- a number that does not fit into an operand, and what it counts -/
  | operandOverflow (value : Nat) (context : String)
  /-- an operand where none belongs, or none where one belongs -/
  | instruction (e : InstrError)
  /-- code that fails the stack check -/
  | height (e : HeightError)
  deriving DecidableEq, Repr

namespace CompileError

def message : CompileError → String
  | unsupportedOperator op =>
    "compile error: unsupported binary operator '" ++ op.symbol ++
      "'\n  hint: only '+' can be compiled"
  | unsupportedTarget _ reason =>
    "compile error: cannot assign to " ++ reason ++ "\n  hint: assign to exactly one plain name"
  | operandOverflow value context =>
    "compile error: " ++ context ++ " operand " ++ toString value ++
      " exceeds the 16-bit operand width"
  | instruction e => "compile error: internal error: " ++ e.message
  | height e => "compile error: internal error: " ++ e.message

/-- The error of an assignment to targets that are not one plain name. -/
def ofTargets (targets : List Target) : CompileError :=
  unsupportedTarget targets.length <|
    match targets with
    | [] => "nothing"
    | [t] => t.describe
    | ts => toString ts.length ++ " targets at once"

/-- The error of an instruction that could not be built; `context` says what
    its operand counts. -/
def ofInstrError (context : String) : InstrError → CompileError
  | .overflow e => operandOverflow e.value context
  | e => instruction e

end CompileError

end Stacklet
