/-
  Code units: what a compilation yields and the host runs.
-/
import Stacklet.Constant
import Stacklet.Instr.Codec

namespace Stacklet

/-- A compiled unit: instruction bytes, pools and description. -/
structure CodeUnit where
  argCount : UInt32
  kwOnlyArgCount : UInt32
  localCount : UInt32
  /-- the greatest height of the stack -/
  stackSize : UInt32
  flags : UInt32
  code : List UInt8
  consts : Array Constant
  names : Array String
  varNames : List String
  fileName : String
  name : String
  firstLine : UInt32
  lineTable : List UInt8
  freeVars : List String
  cellVars : List String
  deriving BEq, Repr

/-- How a unit describes itself. -/
structure UnitOptions where
  fileName : String
  name : String
  firstLine : UInt32
  deriving DecidableEq, Repr

/-- The description of a unit that comes from nowhere in particular. -/
def UnitOptions.default : UnitOptions := ⟨"<stdin>", "<module>", 1⟩

/-! ## Flags -/

/-- The flags that have names, with their bits. -/
def flagNames : List (Nat × String) :=
  [(0, "OPTIMIZED"), (1, "NEWLOCALS"), (2, "VARARGS"), (3, "VARKEYWORDS"), (4, "NESTED"),
    (5, "GENERATOR"), (6, "NOFREE"), (7, "COROUTINE")]

/-- The flags of a compiled unit: optimized, locals of its own, and neither
    free nor cell variables. -/
def unitFlags : UInt32 := 0x43

/-- The instructions of a unit with their offsets. -/
def CodeUnit.instructions (u : CodeUnit) (t : Numbering) :
    Except DecodeError (List (Nat × Instr)) :=
  Instr.decode t u.code

end Stacklet
