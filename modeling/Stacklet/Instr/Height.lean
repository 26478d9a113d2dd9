/-
  How many values instructions take from the stack and leave on it.

  Units are straight-line code, so walking through the instructions once
  gives the height of the stack in front of each of them.

  * `maxDepth` is the greatest height, `finalHeight` the last one; both fail
    at the first instruction that needs more values than there are;
  * `checkBalanced` asks for an empty stack at the end.
-/
import Stacklet.Instr

namespace Stacklet

/-- Why instructions fail the stack check. -/
inductive HeightError where
  /-- too few values for the instruction at a place, with both numbers -/
  | shortBy (place : Nat) (instr : Instr) (needed had : Nat)
  /-- too few values for the instruction at a place -/
  | short (place : Nat) (instr : Instr)
  /-- values left at the end -/
  | leftover (count : Nat)
  deriving DecidableEq, Repr

/-- What is wrong. -/
def HeightError.text : HeightError → String
  | shortBy place i needed had =>
    "stack underflow at ip=" ++ toString place ++ ", op=" ++ i.text ++ ", needed " ++
      toString needed ++ " items, had " ++ toString had
  | short place i => "stack underflow at ip=" ++ toString place ++ ", op=" ++ i.text
  | leftover count => toString count ++ " value(s) left on the stack at end of unit"

def HeightError.message (e : HeightError) : String := "stack-check error: " ++ e.text

namespace Instr

/-- How many values an instruction takes. -/
def pops : Instr → Nat
  | loadConst _ | loadGlobal _ => 0
  | storeGlobal _ | returnValue | popTop | dupTop => 1
  | binaryAdd => 2
  | callFunction count => count.toNat + 1

/-- How many values an instruction leaves. -/
def pushes : Instr → Nat
  | loadConst _ | loadGlobal _ | binaryAdd | callFunction _ => 1
  | storeGlobal _ | returnValue | popTop => 0
  | dupTop => 2

/-- The height behind an instruction, if it finds enough values. -/
def heightAfter? (i : Instr) (height : Nat) : Option Nat :=
  if i.pops ≤ height then some (height - i.pops + i.pushes) else none

/-- The greatest of `deepest` and the heights behind the instructions. -/
def maxDepthFrom (place height deepest : Nat) : List Instr → Except HeightError Nat
  | [] => .ok deepest
  | i :: is =>
    match i.heightAfter? height with
    | none => .error (.shortBy place i i.pops height)
    | some h => maxDepthFrom (place + 1) h (max deepest h) is

/-- The greatest height that instructions reach from an empty stack. -/
def maxDepth (is : List Instr) : Except HeightError Nat := maxDepthFrom 0 0 0 is

/-- The height behind all instructions. -/
def finalHeightFrom (place height : Nat) : List Instr → Except HeightError Nat
  | [] => .ok height
  | i :: is =>
    match i.heightAfter? height with
    | none => .error (.short place i)
    | some h => finalHeightFrom (place + 1) h is

/-- The height that instructions leave, from an empty stack. -/
def finalHeight (is : List Instr) : Except HeightError Nat := finalHeightFrom 0 0 is

/-- The instructions leave nothing on the stack. -/
def checkBalanced (is : List Instr) : Except HeightError Unit :=
  match finalHeight is with
  | .error e => .error e
  | .ok 0 => .ok ()
  | .ok h => .error (.leftover h)

end Instr

end Stacklet
