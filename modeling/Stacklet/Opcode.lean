/-
  The operations of the stack machine, by mnemonic.
-/

namespace Stacklet

/-- An operation. The comments give the stack before and after it. -/
inductive Opcode where
  /-- push a constant: `( -- x )` -/
  | loadConst
  /-- push the value of a global: `( -- x )` -/
  | loadGlobal
  /-- bind a global: `( x -- )` -/
  | storeGlobal
  /-- `( a b -- a+b )` -/
  | binaryAdd
  /-- call with positional arguments: `( f a₁ … aₙ -- result )` -/
  | callFunction
  /-- end the unit: `( x -- )` -/
  | returnValue
  /-- `( x -- )` -/
  | popTop
  /-- `( x -- x x )` -/
  | dupTop
  deriving DecidableEq, Repr

namespace Opcode

/-- All operations, in the order in which tables are listed and checked. -/
def all : List Opcode :=
  [loadConst, loadGlobal, storeGlobal, binaryAdd, callFunction, returnValue, popTop, dupTop]

/-- The place in `all`. -/
def index : Opcode → Fin 8
  | loadConst => 0
  | loadGlobal => 1
  | storeGlobal => 2
  | binaryAdd => 3
  | callFunction => 4
  | returnValue => 5
  | popTop => 6
  | dupTop => 7

def mnemonic : Opcode → String
  | loadConst => "LOAD_CONST"
  | loadGlobal => "LOAD_GLOBAL"
  | storeGlobal => "STORE_GLOBAL"
  | binaryAdd => "BINARY_ADD"
  | callFunction => "CALL_FUNCTION"
  | returnValue => "RETURN_VALUE"
  | popTop => "POP_TOP"
  | dupTop => "DUP_TOP"

/-- The operation with the given mnemonic. -/
def ofMnemonic? (name : String) : Option Opcode := all.find? (·.mnemonic == name)

/-- Whether an operand follows the operation. -/
def hasOperand : Opcode → Bool
  | loadConst | loadGlobal | storeGlobal | callFunction => true
  | binaryAdd | returnValue | popTop | dupTop => false

/-- The size of an instruction in bytes. -/
def width (op : Opcode) : Nat := if op.hasOperand then 3 else 1

@[simp] theorem mem_all (op : Opcode) : op ∈ all := by cases op <;> decide

theorem all_index (op : Opcode) : all[op.index] = op := by cases op <;> rfl

theorem index_inj {a b : Opcode} (h : a.index = b.index) : a = b := by
  rw [← all_index a, ← all_index b, h]

end Opcode

end Stacklet
