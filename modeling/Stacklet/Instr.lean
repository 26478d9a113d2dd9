/-
  Instructions: an operation with the operand it needs, and none otherwise.

  * `ofParts` and `withOperand` are the two ways to build an instruction from
    an operation and an operand; they fail when the operand is missing, in
    excess or wider than sixteen bits;
  * `ofParts_parts`: an instruction is built from its own parts.
-/
import Stacklet.Opcode

namespace Stacklet

/-! ## Operands -/

/-- The largest operand. -/
def maxOperand : Nat := 0xffff

/-- A number that no operand can hold. -/
structure OperandOverflow where
  value : Nat
  deriving DecidableEq, Repr

def OperandOverflow.message (e : OperandOverflow) : String :=
  "operand " ++ toString e.value ++ " does not fit in 16 bits (max " ++ toString maxOperand ++ ")"

/-- A number as an operand. -/
def operandOf (n : Nat) : Except OperandOverflow UInt16 :=
  if n ≤ maxOperand then .ok (UInt16.ofNat n) else .error ⟨n⟩

/-- The low byte and the high byte of an operand. -/
def operandBytes (operand : UInt16) : UInt8 × UInt8 :=
  (UInt8.ofNat operand.toNat, UInt8.ofNat (operand.toNat / 256))

/-- The operand with the given low and high byte. -/
def operandOfBytes (lo hi : UInt8) : UInt16 := UInt16.ofNat (lo.toNat + 256 * hi.toNat)

/-! ## Instructions -/

/-- An instruction. -/
inductive Instr where
  | loadConst (index : UInt16)
  | loadGlobal (index : UInt16)
  | storeGlobal (index : UInt16)
  | binaryAdd
  | callFunction (count : UInt16)
  | returnValue
  | popTop
  | dupTop
  deriving DecidableEq, Repr

/-- Why an operation and an operand are no instruction. -/
inductive InstrError where
  | missingOperand (op : Opcode)
  | unexpectedOperand (op : Opcode)
  | overflow (e : OperandOverflow)
  deriving DecidableEq, Repr

def InstrError.message : InstrError → String
  | missingOperand op => op.mnemonic ++ " requires an operand"
  | unexpectedOperand op => op.mnemonic ++ " takes no operand"
  | overflow e => e.message

namespace Instr

def opcode : Instr → Opcode
  | loadConst _ => .loadConst
  | loadGlobal _ => .loadGlobal
  | storeGlobal _ => .storeGlobal
  | binaryAdd => .binaryAdd
  | callFunction _ => .callFunction
  | returnValue => .returnValue
  | popTop => .popTop
  | dupTop => .dupTop

def operand? : Instr → Option UInt16
  | loadConst n | loadGlobal n | storeGlobal n | callFunction n => some n
  | binaryAdd | returnValue | popTop | dupTop => none

/-- The operand as a number, zero if there is none. -/
def arg (i : Instr) : Nat := (i.operand?.map UInt16.toNat).getD 0

/-- The size in bytes. -/
def width (i : Instr) : Nat := i.opcode.width

/-- The mnemonic, and the operand behind it. -/
def text (i : Instr) : String :=
  match i.operand? with
  | some n => i.opcode.mnemonic ++ " " ++ toString n.toNat
  | none => i.opcode.mnemonic

/-- The instruction made of an operation and perhaps an operand. -/
def ofParts : Opcode → Option UInt16 → Except InstrError Instr
  | .loadConst, some n => .ok (loadConst n)
  | .loadGlobal, some n => .ok (loadGlobal n)
  | .storeGlobal, some n => .ok (storeGlobal n)
  | .callFunction, some n => .ok (callFunction n)
  | .binaryAdd, none => .ok binaryAdd
  | .returnValue, none => .ok returnValue
  | .popTop, none => .ok popTop
  | .dupTop, none => .ok dupTop
  | op, none => .error (.missingOperand op)
  | op, some _ => .error (.unexpectedOperand op)

/-- The instruction with a number as operand, which may be too large. -/
def withOperand (op : Opcode) (n : Nat) : Except InstrError Instr :=
  if op.hasOperand then
    match operandOf n with
    | .ok v => ofParts op (some v)
    | .error e => .error (.overflow e)
  else .error (.unexpectedOperand op)

theorem ofParts_parts (i : Instr) : ofParts i.opcode i.operand? = .ok i := by
  cases i <;> rfl

end Instr

end Stacklet
