/-
  Double-precision numbers as their 64 bits.

  A finite double is `± significand · 2^scale` in units of `2^-1074`, so its
  magnitude in those units is a natural number (`magnitude`), and every
  comparison below is one between naturals.

  * `ofRatio n d` is the double nearest `n / d`, of two equally near ones the
    even one; `ofDecimal` reads `digits · 10^exponent`, and `ofInt` an integer;
  * `add` and `pow` are the machine's operations;
  * `canonical` picks one word for both zeros and one for all NaNs: the
    equality under which doubles are shared.
-/

namespace Stacklet

/-- A double-precision number, given by its bits. -/
structure Binary64 where
  bits : UInt64
  deriving DecidableEq, Hashable, Repr, Inhabited

namespace Binary64

/-! ## Fields -/

/-- The bits as a natural number. -/
def word (x : Binary64) : Nat := x.bits.toNat

/-- The word in which only the sign bit is set, `2^63`. -/
def signBit : Nat := 0x8000000000000000

/-- The leading one of a significand, which normal numbers leave out; also the
    weight of the exponent field, `2^52`. -/
def leadingOne : Nat := 0x10000000000000

/-- The sign bit is set. -/
def isNegative (x : Binary64) : Bool := decide (signBit ≤ x.word)

/-- The eleven exponent bits. -/
def exponentField (x : Binary64) : Nat := x.word / leadingOne % 2048

/-- The fifty-two fraction bits. -/
def fraction (x : Binary64) : Nat := x.word % leadingOne

/-- Neither infinite nor NaN. -/
def isFinite (x : Binary64) : Bool := x.exponentField != 2047

def isNaN (x : Binary64) : Bool := x.exponentField == 2047 && x.fraction != 0

def isInfinite (x : Binary64) : Bool := x.exponentField == 2047 && x.fraction == 0

/-- The fraction with the leading one. -/
def significand (x : Binary64) : Nat :=
  if x.exponentField = 0 then x.fraction else leadingOne + x.fraction

/-- The weight of the last significand bit is `2^scale` units. -/
def scale (x : Binary64) : Nat := x.exponentField - 1

/-- The absolute value of a finite double in units of `2^-1074`. -/
def magnitude (x : Binary64) : Nat := x.significand <<< x.scale

/-- Zero of either sign. -/
def isZero (x : Binary64) : Bool := x.word % signBit == 0

/-- The number without its sign. -/
def abs (x : Binary64) : Binary64 := ⟨UInt64.ofNat (x.word % signBit)⟩

/-- The number with the opposite sign. -/
def neg (x : Binary64) : Binary64 :=
  ⟨UInt64.ofNat (if x.isNegative then x.word - signBit else x.word + signBit)⟩

def zero : Binary64 := ⟨0⟩

def infinity : Binary64 := ⟨0x7ff0000000000000⟩

/-- The NaN that stands for all of them. -/
def nan : Binary64 := ⟨0x7ff8000000000000⟩

/-- One word for both zeros and one for all NaNs. -/
def canonical (x : Binary64) : Binary64 :=
  if x.isNaN then nan else if x.isZero then zero else x

/-! ## Rounding -/

/-- The integer nearest `a / d`, the even one of two equally near ones. -/
def nearestMultiple (a d : Nat) : Nat :=
  let quotient := a / d
  let twice := 2 * (a % d)
  if twice < d ∨ twice = d ∧ quotient % 2 = 0 then quotient else quotient + 1

/-- The least `p` with `a / d < 2^(p + 53)`: the scale at which `a / d` has at
    most fifty-three bits. -/
def unitScale (a d : Nat) : Nat :=
  let p := a.log2 - (d.log2 + 52)
  if 0 < p ∧ a < d <<< (p + 52) then p - 1 else p

/-- The double nearest `n / d`, the even one of two equally near ones; from
    halfway beyond the largest finite double on, infinity.

    Non-negative doubles are ordered like their words, so a significand that
    rounds up to `2^53` carries into the exponent field by itself. -/
def ofRatio (n d : Nat) : Binary64 :=
  let a := n <<< 1074
  let p := unitScale a d
  let m := nearestMultiple a (d <<< p)
  ⟨UInt64.ofNat (min (p * leadingOne + m) (2047 * leadingOne))⟩

/-- The double nearest `digits · 10^exponent`. -/
def ofDecimal (digits : Nat) : (exponent : Int) → Binary64
  | .ofNat e => ofRatio (digits * Nat.pow 10 e) 1
  | .negSucc e => ofRatio digits (Nat.pow 10 (e + 1))

/-- The double nearest an integer. -/
def ofInt (n : Int) : Binary64 :=
  if n < 0 then (ofRatio n.natAbs 1).neg else ofRatio n.natAbs 1

/-! ## Arithmetic -/

/-- Addition, rounded to nearest. -/
def add (x y : Binary64) : Binary64 :=
  ⟨(Float.ofBits x.bits + Float.ofBits y.bits).toBits⟩

/-- The power function of the machine. -/
def pow (x y : Binary64) : Binary64 :=
  ⟨(Float.pow (Float.ofBits x.bits) (Float.ofBits y.bits)).toBits⟩

end Binary64

end Stacklet
