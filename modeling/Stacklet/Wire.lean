/-
  The elements of the byte form: numbers of variable length, texts and lists.

  A natural number is written seven bits to a byte, low ones first, with the
  high bit set in every byte but the last. A reader accepts longer forms than
  necessary, up to the number of bytes that the width of the number allows.

  * `writeVarint` and `readVarint` are these two; lists and texts are preceded
    by their length;
  * `zigzag` folds the integers into the naturals, small ones first.
-/

namespace Stacklet

/-- Why bytes cannot be read. -/
inductive WireError where
  | endOfBuffer
  | badVarint
  | badUtf8
  /-- a tag that no constant has -/
  | badTag
  deriving DecidableEq, Repr

def WireError.text : WireError → String
  | endOfBuffer => "Hit the end of buffer, expected more data"
  | badVarint => "Found a varint that didn't terminate. Is the usize too big for this platform?"
  | badUtf8 => "Tried to parse invalid utf-8"
  | badTag => "Serde Deserialization Error"

namespace Wire

/-- Reads a value from the front of a byte sequence and returns what follows
    it. -/
abbrev Reader (α : Type) := List UInt8 → Except WireError (α × List UInt8)

/-! ## Numbers -/

/-- A natural number, seven bits to a byte. -/
def writeVarint (n : Nat) : List UInt8 :=
  if n < 128 then [UInt8.ofNat n]
  else UInt8.ofNat (n % 128 + 128) :: writeVarint (n / 128)
termination_by n

/-- A number of at most `more + 1` bytes; a last byte that is not preceded by
    fewer holds at most `limit`. -/
def readVarint (more limit : Nat) : Reader Nat
  | [] => .error .endOfBuffer
  | b :: rest =>
    match more with
    | 0 => if b.toNat ≤ limit then .ok (b.toNat, rest) else .error .badVarint
    | more + 1 =>
      if b.toNat < 128 then .ok (b.toNat, rest)
      else
        match readVarint more limit rest with
        | .error e => .error e
        | .ok (n, rest) => .ok (b.toNat - 128 + 128 * n, rest)

/-- A number of 32 bits. -/
def read32 : Reader Nat := readVarint 4 15

/-- A number of 64 bits. -/
def read64 : Reader Nat := readVarint 9 1

/-- `0, -1, 1, -2, 2, …` as `0, 1, 2, 3, 4, …`. -/
def zigzag (n : Int) : Nat := if n < 0 then 2 * n.natAbs - 1 else 2 * n.natAbs

/-- The integer that `zigzag` maps to a number. -/
def unzigzag (n : Nat) : Int := if n % 2 = 0 then (n / 2 : Nat) else -((n / 2 + 1 : Nat) : Int)

/-- The `count` low bytes of a number, low ones first. -/
def writeFixed : (count : Nat) → Nat → List UInt8
  | 0, _ => []
  | count + 1, n => UInt8.ofNat (n % 256) :: writeFixed count (n / 256)

/-- A number of `count` bytes, low ones first. -/
def readFixed : (count : Nat) → Reader Nat
  | 0, bytes => .ok (0, bytes)
  | _ + 1, [] => .error .endOfBuffer
  | count + 1, b :: rest =>
    match readFixed count rest with
    | .error e => .error e
    | .ok (n, rest) => .ok (b.toNat + 256 * n, rest)

/-! ## Sequences -/

/-- Bytes with their number in front. -/
def writeBytes (bytes : List UInt8) : List UInt8 := writeVarint bytes.length ++ bytes

def readBytes : Reader (List UInt8) := fun bytes =>
  match read64 bytes with
  | .error e => .error e
  | .ok (count, rest) =>
    let front := rest.take count
    if front.length = count then .ok (front, rest.drop count) else .error .endOfBuffer

/-- The bytes of a text. -/
def bytesOfText (s : String) : List UInt8 := s.toByteArray.data.toList

/-- The text of some bytes, if they are one. -/
def textOfBytes? (bytes : List UInt8) : Option String := String.fromUTF8? ⟨bytes.toArray⟩

/-- A text with the number of its bytes in front. -/
def writeText (s : String) : List UInt8 := writeBytes (bytesOfText s)

def readText : Reader String := fun bytes =>
  match readBytes bytes with
  | .error e => .error e
  | .ok (text, rest) =>
    match textOfBytes? text with
    | none => .error .badUtf8
    | some s => .ok (s, rest)

/-- Items with their number in front. -/
def writeList {α : Type} (item : α → List UInt8) (as : List α) : List UInt8 :=
  writeVarint as.length ++ as.flatMap item

/-- As many items as `count` says, behind those found before. -/
def readItems {α : Type} (item : Reader α) : (count : Nat) → Array α → Reader (Array α)
  | 0, found, bytes => .ok (found, bytes)
  | count + 1, found, bytes =>
    match item bytes with
    | .error e => .error e
    | .ok (a, rest) => readItems item count (found.push a) rest

def readList {α : Type} (item : Reader α) : Reader (Array α) := fun bytes =>
  match read64 bytes with
  | .error e => .error e
  | .ok (count, rest) => readItems item count #[] rest

end Wire

end Stacklet
