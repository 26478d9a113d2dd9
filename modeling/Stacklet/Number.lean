/-
  Numbers of the language and their text.

  An integer is written in decimal. A double is written with the fewest
  digits that identify it (`Binary64.shortest`): positionally, with at least
  one digit after the point, if its leading digit stands between `10^-4` and
  `10^15`, and with an exponent otherwise.
-/
import Stacklet.Binary64.Shortest

namespace Stacklet

/-- A numeric literal. -/
inductive Number where
  /-- a 64-bit signed integer -/
  | int (n : Int64)
  /-- a double -/
  | float (x : Binary64)
  deriving DecidableEq, Repr

/-- An integer as one of 64 bits, if it is in range. -/
def int64? (n : Int) : Option Int64 :=
  if Int64.minValue.toInt ≤ n ∧ n ≤ Int64.maxValue.toInt then some (Int64.ofInt n) else none

namespace Decimal

/-- The power of ten at which the leading digit stands. -/
def leadingPower (d : Decimal) : Int :=
  ((toString d.digits).length : Int) + d.exponent - 1

/-- `12.5`, `0.001`, `300.0`: digits around a point, zeros filled in. -/
def positional (d : Decimal) : String :=
  let digits := toString d.digits
  match d.exponent with
  | .ofNat e => digits ++ "".pushn '0' e ++ ".0"
  | .negSucc e =>
    let padded := ("".pushn '0' (e + 2 - digits.length) ++ digits).toList
    let whole := padded.length - (e + 1)
    String.ofList (padded.take whole) ++ "." ++ String.ofList (padded.drop whole)

/-- `1e16`, `1.5e-7`: one digit before the point, and a point only if more
    digits follow. -/
def scientific (d : Decimal) : String :=
  match (toString d.digits).toList with
  | [] => ""
  | lead :: more =>
    let point := if more.isEmpty then "" else "." ++ String.ofList more
    lead.toString ++ point ++ "e" ++ toString d.leadingPower

/-- Positional from `10^-4` up to below `10^16`, scientific elsewhere. -/
def text (d : Decimal) : String :=
  if -4 ≤ d.leadingPower ∧ d.leadingPower < 16 then d.positional else d.scientific

end Decimal

/-- The text of a double, which is also how it is printed at run time. -/
def Binary64.text (x : Binary64) : String :=
  if x.isNaN then "NaN"
  else
    let sign := if x.isNegative then "-" else ""
    if x.isInfinite then sign ++ "inf"
    else if x.isZero then sign ++ "0.0"
    else sign ++ x.shortest.text

/-- The text of a number. -/
def Number.text : Number → String
  | .int n => toString n.toInt
  | .float x => x.text

end Stacklet
