/-
  Units as text.

  A listing has one line for each instruction: its offset, its mnemonic, and
  the operand with what it stands for. An index that its pool does not have
  is shown as such.

  * `CodeUnit.listing` is the instructions, `CodeUnit.info` the description
    and the pools, `CodeUnit.banner` the head of a printed listing.
-/
import Stacklet.CodeUnit
import Stacklet.Text.Column
import Stacklet.Text.Quoted

namespace Stacklet

open Text

namespace CodeUnit

/-! ## Instructions -/

/-- What the operand of an instruction stands for. -/
def operandText? (u : CodeUnit) : Instr → Option String
  | .loadConst n => u.consts[n.toNat]?.map Constant.text
  | .loadGlobal n | .storeGlobal n => u.names[n.toNat]?
  | .callFunction n => some (toString n.toNat ++ " positional")
  | .binaryAdd | .returnValue | .popTop | .dupTop => none

/-- The line of an instruction. -/
def line (u : CodeUnit) (offset : Nat) (i : Instr) : String :=
  let place := padLeft 4 (toString offset) ++ " "
  match i.operand? with
  | none => place ++ i.opcode.mnemonic
  | some n =>
    place ++ padRight 24 i.opcode.mnemonic ++ " " ++ padLeft 3 (toString n.toNat) ++ " (" ++
      (u.operandText? i).getD "<invalid>" ++ ")"

/-- The instructions, a line for each. -/
def listing (u : CodeUnit) (t : Numbering) : Except DecodeError String :=
  match u.instructions t with
  | .error e => .error e
  | .ok is => .ok (lines (is.map fun (offset, i) => u.line offset i))

/-- The lines above a printed listing. -/
def banner (u : CodeUnit) : String :=
  let rule := "".pushn '═' 40
  lines [
    rule,
    " " ++ u.name ++ " (" ++ u.fileName ++ ")",
    " " ++ toString u.code.length ++ " bytes, stacksize " ++ toString u.stackSize.toNat,
    rule]

/-! ## Description -/

/-- A number with its base. -/
def hexText (n : Nat) : String := "0x" ++ hex n

/-- The names of the flags that are set, and the rest of the bits as one
    number. -/
def flagTexts (flags : UInt32) : List String :=
  let n := flags.toNat
  let named := flagNames.filterMap fun (bit, name) => if n.testBit bit then some name else none
  let other := n >>> flagNames.length <<< flagNames.length
  if other = 0 then named else named ++ [hexText other]

def flagsText (flags : UInt32) : String :=
  let texts := flagTexts flags
  "CodeFlags(" ++ (if texts.isEmpty then "0x0" else " | ".intercalate texts) ++ ")"

/-- The entries of a pool, numbered. -/
def poolLines (entries : List String) : List String :=
  entries.zipIdx.map fun (entry, n) => "  " ++ padLeft 3 (toString n) ++ ": " ++ entry

/-- The description of a unit and its pools. -/
def info (u : CodeUnit) : String :=
  lines <| [
    "Name:              " ++ u.name,
    "Filename:          " ++ u.fileName,
    "Argument count:    " ++ toString u.argCount.toNat,
    "Kw-only arguments: " ++ toString u.kwOnlyArgCount.toNat,
    "Number of locals:  " ++ toString u.localCount.toNat,
    "Stack size:        " ++ toString u.stackSize.toNat,
    "Flags:             " ++ hexText u.flags.toNat ++ " " ++ flagsText u.flags,
    "First line:        " ++ toString u.firstLine.toNat,
    "Constants:"] ++ poolLines (u.consts.toList.map Constant.text) ++
    (if u.names.isEmpty then [] else "Names:" :: poolLines u.names.toList)

end CodeUnit

end Stacklet
