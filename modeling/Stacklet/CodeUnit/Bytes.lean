/-
  Units as bytes.

  The fields of a unit follow one another in a fixed order, without names or
  separators: numbers of variable length, lists and texts with their length
  in front, doubles as their eight bytes, constants with a tag in front.
  Reading ignores what follows the last field.

  * `CodeUnit.toBytes` writes a unit, `CodeUnit.read` reads one and returns
    the rest, `CodeUnit.ofBytes` drops the rest.
-/
import Stacklet.CodeUnit
import Stacklet.Wire

namespace Stacklet

open Wire

/-! ## Constants -/

def Constant.toBytes : Constant → List UInt8
  | none => [0]
  | int n => 1 :: writeVarint (zigzag n.toInt)
  | float x => 2 :: writeFixed 8 x.word

def Constant.read : Reader Constant := fun bytes =>
  match read32 bytes with
  | .error e => .error e
  | .ok (0, rest) => .ok (none, rest)
  | .ok (1, rest) =>
    match read64 rest with
    | .error e => .error e
    | .ok (n, rest) => .ok (int (Int64.ofInt (unzigzag n)), rest)
  | .ok (2, rest) =>
    match readFixed 8 rest with
    | .error e => .error e
    | .ok (n, rest) => .ok (float ⟨UInt64.ofNat n⟩, rest)
  | .ok _ => .error .badTag

/-! ## Units -/

namespace CodeUnit

/-- A 32-bit field. -/
def writeField (n : UInt32) : List UInt8 := writeVarint n.toNat

def readField : Reader UInt32 := fun bytes =>
  match read32 bytes with
  | .error e => .error e
  | .ok (n, rest) => .ok (UInt32.ofNat n, rest)

/-- The bytes of a unit. -/
def toBytes (u : CodeUnit) : List UInt8 :=
  writeField u.argCount ++ (writeField u.kwOnlyArgCount ++ (writeField u.localCount ++
  (writeField u.stackSize ++ (writeField u.flags ++ (writeBytes u.code ++
  (writeList Constant.toBytes u.consts.toList ++ (writeList writeText u.names.toList ++
  (writeList writeText u.varNames ++ (writeText u.fileName ++ (writeText u.name ++
  (writeField u.firstLine ++ (writeBytes u.lineTable ++ (writeList writeText u.freeVars ++
  writeList writeText u.cellVars)))))))))))))

/-- Reads a unit from the front of some bytes. -/
def read : Reader CodeUnit := fun bytes => do
  let (argCount, bytes) ← readField bytes
  let (kwOnlyArgCount, bytes) ← readField bytes
  let (localCount, bytes) ← readField bytes
  let (stackSize, bytes) ← readField bytes
  let (flags, bytes) ← readField bytes
  let (code, bytes) ← readBytes bytes
  let (consts, bytes) ← readList Constant.read bytes
  let (names, bytes) ← readList readText bytes
  let (varNames, bytes) ← readList readText bytes
  let (fileName, bytes) ← readText bytes
  let (name, bytes) ← readText bytes
  let (firstLine, bytes) ← readField bytes
  let (lineTable, bytes) ← readBytes bytes
  let (freeVars, bytes) ← readList readText bytes
  let (cellVars, bytes) ← readList readText bytes
  return ({
    argCount, kwOnlyArgCount, localCount, stackSize, flags, code, consts, names,
    varNames := varNames.toList, fileName, name, firstLine, lineTable,
    freeVars := freeVars.toList, cellVars := cellVars.toList }, bytes)

/-- The unit at the front of some bytes. -/
def ofBytes (bytes : List UInt8) : Except WireError CodeUnit :=
  match read bytes with
  | .error e => .error e
  | .ok (u, _) => .ok u

/-- What a failure to read a unit is reported as. -/
def loadMessage (e : WireError) : String := "malformed code object: " ++ e.text

end CodeUnit

end Stacklet
