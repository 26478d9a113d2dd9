/-
  Instructions as bytes.

  An instruction is the byte of its operation, followed by the low and the
  high byte of the operand if there is one. Reading stops at the first byte
  that starts no instruction.

  * `encodeAll` writes a sequence of instructions, `decode` reads one and
    gives the offset of each instruction.
-/
import Stacklet.Instr
import Stacklet.Numbering

namespace Stacklet

/-- Why bytes are no instructions. -/
inductive DecodeError where
  | unknownOpcode (byte : UInt8) (offset : Nat)
  | truncatedOperand (op : Opcode) (offset : Nat)
  deriving DecidableEq, Repr

def DecodeError.message : DecodeError → String
  | unknownOpcode byte offset =>
    "unknown opcode byte " ++ toString byte.toNat ++ " at offset " ++ toString offset
  | truncatedOperand op offset =>
    "truncated operand for " ++ op.mnemonic ++ " at offset " ++ toString offset

namespace Instr

/-- The bytes of an instruction. -/
def encode (t : Numbering) (i : Instr) : List UInt8 :=
  match i.operand? with
  | some n => [t.code i.opcode, (operandBytes n).1, (operandBytes n).2]
  | none => [t.code i.opcode]

/-- The bytes of instructions, one after the other. -/
def encodeAll (t : Numbering) (is : List Instr) : List UInt8 := is.flatMap (encode t)

/-- The instruction of an operation whose operand, if it needs one, stands at
    the front of `rest`; and what follows it. -/
def readOperand (op : Opcode) (rest : List UInt8) : Option (Instr × List UInt8) :=
  match op, rest with
  | .loadConst, lo :: hi :: rest => some (loadConst (operandOfBytes lo hi), rest)
  | .loadGlobal, lo :: hi :: rest => some (loadGlobal (operandOfBytes lo hi), rest)
  | .storeGlobal, lo :: hi :: rest => some (storeGlobal (operandOfBytes lo hi), rest)
  | .callFunction, lo :: hi :: rest => some (callFunction (operandOfBytes lo hi), rest)
  | .binaryAdd, rest => some (binaryAdd, rest)
  | .returnValue, rest => some (returnValue, rest)
  | .popTop, rest => some (popTop, rest)
  | .dupTop, rest => some (dupTop, rest)
  | _, _ => none

theorem length_of_readOperand {op : Opcode} {bytes rest : List UInt8} {i : Instr}
    (h : readOperand op bytes = some (i, rest)) : rest.length + op.width = bytes.length + 1 := by
  unfold readOperand at h
  split at h
  all_goals simp only [Option.some.injEq, Prod.mk.injEq, reduceCtorEq] at h
  all_goals
    obtain ⟨_, rfl⟩ := h
    simp [Opcode.width, Opcode.hasOperand]

/-- Reads the instructions from `offset` on, onto those found before. -/
def decodeFrom (t : Numbering) (found : Array (Nat × Instr)) (offset : Nat) :
    List UInt8 → Except DecodeError (List (Nat × Instr))
  | [] => .ok found.toList
  | byte :: bytes =>
    match t.opcode? byte with
    | none => .error (.unknownOpcode byte offset)
    | some op =>
      match _h : readOperand op bytes with
      | none => .error (.truncatedOperand op offset)
      | some (i, rest) => decodeFrom t (found.push (offset, i)) (offset + op.width) rest
termination_by bytes => bytes.length
decreasing_by
  have := length_of_readOperand _h
  simp only [List.length_cons, Opcode.width] at *
  split at this <;> omega

/-- The instructions in a sequence of bytes, each with its offset. -/
def decode (t : Numbering) (bytes : List UInt8) : Except DecodeError (List (Nat × Instr)) :=
  decodeFrom t #[] 0 bytes

end Instr

end Stacklet
