/-
  The fewest decimal digits that read back as a given double.

  The decimals `f · 10^e` with a fixed `e` form a grid. Only the two grid
  points around a double can be the nearest ones that read back as it, so it
  suffices to try these two (`pointOnGrid?`), from a grid too coarse for a
  hit down to finer ones; the first grid with a hit has the fewest digits.

  * `pointOnGrid?_reads`: a point found on a grid reads back as the double.
-/
import Stacklet.Binary64

namespace Stacklet

/-- The decimal number `digits · 10^exponent`. -/
structure Decimal where
  digits : Nat
  exponent : Int
  deriving DecidableEq, Repr

namespace Binary64

/-- Numerator and denominator of `|x| / 10^e`. -/
def overPowerOfTen (x : Binary64) : (e : Int) → Nat × Nat
  | .ofNat e => (x.magnitude, Nat.pow 10 e <<< 1074)
  | .negSucc e => (x.magnitude * Nat.pow 10 (e + 1), 1 <<< 1074)

/-- Whether `f · 10^e` is read as `|x|`. -/
def reads (x : Binary64) (e : Int) (f : Nat) : Bool := ofDecimal f e == x.abs

/-- Of the multiples of `10^e` next to `|x|`, the nearest that is read as
    `|x|`; the larger one if both are equally near. -/
def pointOnGrid? (x : Binary64) (e : Int) : Option Nat :=
  let (n, d) := x.overPowerOfTen e
  let below := n / d
  match x.reads e below, x.reads e (below + 1) with
  | true, true => if 2 * (n % d) < d then some below else some (below + 1)
  | true, false => some below
  | false, true => some (below + 1)
  | false, false => none

/-- An exponent of ten above `|x|`, at most two too large: `0.30103` is the
    decimal logarithm of two, rounded up. -/
def coarsestExponent (x : Binary64) : Int :=
  ((x.magnitude.log2 : Int) - 1073) * 30103 / 100000 + 1

/-- The decimal with the fewest digits that is read as `|x|`, the nearest to
    `|x|` of those. Seventeen digits identify every double, so twenty grids
    are enough; past them the exact value would be taken. -/
def shortest (x : Binary64) : Decimal :=
  let top := x.coarsestExponent
  let hit := (List.range 20).findSome? fun (step : Nat) =>
    let e := top - (step : Int)
    (x.pointOnGrid? e).map fun f => { digits := f, exponent := e : Decimal }
  hit.getD ⟨x.magnitude * Nat.pow 5 1074, -1074⟩

theorem pointOnGrid?_reads {x : Binary64} {e : Int} {f : Nat}
    (h : x.pointOnGrid? e = some f) : ofDecimal f e = x.abs := by
  simp only [pointOnGrid?, reads] at h
  split at h
  · rename_i h₁ h₂
    split at h <;> simp_all
  all_goals simp_all

end Binary64

end Stacklet
