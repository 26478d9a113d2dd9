/-
  Units from trees.

  The code of a tree is followed by the instructions that return `None`, which
  is interned last, and checked against the stack before it is written as
  bytes.

  * `CodeUnit.finish` goes on from pools in use, `CodeUnit.ofTree` starts from
    empty ones.
-/
import Stacklet.CodeUnit
import Stacklet.Emission

namespace Stacklet

namespace CodeUnit

/-- The unit made of checked instructions and pools. -/
def assemble (t : Numbering) (options : UnitOptions) (pools : Pools) (is : List Instr)
    (depth : Nat) : CodeUnit where
  argCount := 0
  kwOnlyArgCount := 0
  localCount := 0
  stackSize := UInt32.ofNat depth
  flags := unitFlags
  code := Instr.encodeAll t is
  consts := pools.consts.values
  names := pools.names.values
  varNames := []
  fileName := options.fileName
  name := options.name
  firstLine := options.firstLine
  lineTable := []
  freeVars := []
  cellVars := []

/-- The greatest height of instructions that are balanced. -/
def checkedDepth (is : List Instr) : Except CompileError Nat :=
  match Instr.maxDepth is with
  | .error e => .error (.height e)
  | .ok depth =>
    match Instr.checkBalanced is with
    | .error e => .error (.height e)
    | .ok () => .ok depth

/-- The instructions of a whole unit: those of the tree and the return. -/
def instructionsOf (tree : Tree) (pools : Pools) : Except CompileError (List Instr) × Pools :=
  match emit tree pools with
  | (.error e, pools) => (.error e, pools)
  | (.ok body, pools) =>
    match loadConst .none pools with
    | (.error e, pools) => (.error e, pools)
    | (.ok load, pools) => (.ok (sequence [body, [load, .returnValue]]), pools)

/-- Compiles a tree with pools that may hold something already. -/
def finish (t : Numbering) (options : UnitOptions) (tree : Tree) (pools : Pools) :
    Except CompileError CodeUnit :=
  match instructionsOf tree pools with
  | (.error e, _) => .error e
  | (.ok is, pools) =>
    match checkedDepth is with
    | .error e => .error e
    | .ok depth => .ok (assemble t options pools is depth)

/-- Compiles a tree. -/
def ofTree (t : Numbering) (options : UnitOptions) (tree : Tree) : Except CompileError CodeUnit :=
  finish t options tree .empty

end CodeUnit

end Stacklet
