/-
  Decimals and the doubles that they are read as.

  What a decimal is read as depends on its value alone (`Decimal.value`), and
  a larger one is read as no smaller double. The shortest decimal of a double
  and the exact one are read as that double, so a power of ten between them is
  read as it too. For `10^-4` and `10^16` that is not so, and both decimals
  are on one side of them.

  * `word_read_mono`: reading is monotone;
  * `read_shortest`: the shortest decimal of a double is read as that double;
  * `leadingPower_shortest_bounds`: between which powers of ten it stands.
-/
import Mathlib.Algebra.Order.Field.Power
import Mathlib.Tactic.FieldSimp
import Mathlib.Tactic.NormNum
import Stacklet.Number
import Stacklet.Proofs.Columns
import Stacklet.Proofs.Rounding

namespace Stacklet

/-! ## Values of decimals -/

namespace Decimal

/-- The number that a decimal is. -/
def value (d : Decimal) : ℚ := d.digits * 10 ^ d.exponent

/-- The double that a decimal is read as. -/
def read (d : Decimal) : Binary64 := .ofDecimal d.digits d.exponent

/-- A decimal is read as its value is rounded. -/
theorem exists_read_eq (d : Decimal) :
    ∃ n k : Nat, 0 < k ∧ d.read = .ofRatio n k ∧ (n / k : ℚ) = d.value := by
  obtain ⟨digits, exponent⟩ := d
  cases exponent with
  | ofNat e =>
    refine ⟨digits * Nat.pow 10 e, 1, Nat.one_pos, rfl, ?_⟩
    simp [value]
  | negSucc e =>
    refine ⟨digits, Nat.pow 10 (e + 1), Nat.pow_pos (by decide), rfl, ?_⟩
    simp [value, zpow_negSucc, div_eq_mul_inv]

/-- **A larger decimal is read as no smaller double.** -/
theorem word_read_mono {d d' : Decimal} (h : d.value ≤ d'.value) : d.read.word ≤ d'.read.word := by
  obtain ⟨n, k, hk, hread, hvalue⟩ := d.exists_read_eq
  obtain ⟨n', k', hk', hread', hvalue'⟩ := d'.exists_read_eq
  rw [hread, hread']
  refine Binary64.word_ofRatio_mono hk hk' ?_
  rw [← hvalue, ← hvalue', div_le_div_iff₀ (Nat.cast_pos.2 hk) (Nat.cast_pos.2 hk')] at h
  exact_mod_cast h

/-- Decimals of one value are read as one double. -/
theorem read_congr {d d' : Decimal} (h : d.value = d'.value) : d.read = d'.read :=
  Binary64.eq_of_word (Nat.le_antisymm (word_read_mono h.le) (word_read_mono h.ge))

/-- What is between two decimals of one double is read as that double. -/
theorem read_eq_of_between {x : Binary64} {d e d' : Decimal} (h : d.read = x) (h' : d'.read = x)
    (hle : d.value ≤ e.value) (hle' : e.value ≤ d'.value) : e.read = x := by
  have hword := word_read_mono hle
  have hword' := word_read_mono hle'
  rw [h] at hword
  rw [h'] at hword'
  exact Binary64.eq_of_word (Nat.le_antisymm hword' hword)

/-! ## Leading digits -/

theorem length_toDigits_pos (n : Nat) : 0 < (Nat.toDigits 10 n).length :=
  List.length_pos_iff.2 Nat.toDigits_ne_nil

/-- The digits of a number say between which powers of ten it is. -/
theorem pow_length_toDigits {n : Nat} (h : 0 < n) :
    10 ^ ((Nat.toDigits 10 n).length - 1) ≤ n ∧ n < 10 ^ (Nat.toDigits 10 n).length := by
  refine ⟨?_, (Nat.length_toDigits_le_iff (by decide) (length_toDigits_pos n)).1 le_rfl⟩
  rcases Nat.eq_zero_or_pos ((Nat.toDigits 10 n).length - 1) with hone | hmore
  · rw [hone]
    exact h
  · by_contra hlt
    have := (Nat.length_toDigits_le_iff (by decide) hmore).2 (Nat.lt_of_not_le hlt)
    omega

theorem leadingPower_eq (d : Decimal) :
    d.leadingPower = ((Nat.toDigits 10 d.digits).length : Int) + d.exponent - 1 := by
  rw [leadingPower, ← String.length_toList, Text.toList_toString]

/-- A decimal stands between its leading power of ten and the next one. -/
theorem leadingPower_spec {d : Decimal} (h : 0 < d.digits) :
    (10 : ℚ) ^ d.leadingPower ≤ d.value ∧ d.value < (10 : ℚ) ^ (d.leadingPower + 1) := by
  have hten : (10 : ℚ) ≠ 0 := by norm_num
  have hlength := length_toDigits_pos d.digits
  obtain ⟨hle, hlt⟩ := pow_length_toDigits h
  rw [leadingPower_eq, value]
  generalize (Nat.toDigits 10 d.digits).length = k at hlength hle hlt ⊢
  constructor
  · calc
      (10 : ℚ) ^ ((k : Int) + d.exponent - 1) = ((10 ^ (k - 1) : Nat) : ℚ) * 10 ^ d.exponent := by
        rw [Nat.cast_pow, Nat.cast_ofNat, ← zpow_natCast, ← zpow_add₀ hten]
        congr 1
        omega
      _ ≤ d.digits * 10 ^ d.exponent := by gcongr
  · calc
      d.digits * (10 : ℚ) ^ d.exponent < ((10 ^ k : Nat) : ℚ) * 10 ^ d.exponent := by gcongr
      _ = (10 : ℚ) ^ ((k : Int) + d.exponent - 1 + 1) := by
        rw [Nat.cast_pow, Nat.cast_ofNat, ← zpow_natCast, ← zpow_add₀ hten]
        congr 1
        omega

theorem le_leadingPower_iff {d : Decimal} (h : 0 < d.digits) {p : Int} :
    p ≤ d.leadingPower ↔ (10 : ℚ) ^ p ≤ d.value := by
  obtain ⟨hle, hlt⟩ := leadingPower_spec h
  have hten : (1 : ℚ) < 10 := by norm_num
  constructor
  · intro hp
    exact (zpow_le_zpow_right₀ hten.le hp).trans hle
  · intro hp
    exact Int.lt_add_one_iff.1 ((zpow_lt_zpow_iff_right₀ hten).1 (hp.trans_lt hlt))

end Decimal

/-! ## Shortest decimals -/

namespace Binary64

/-- The decimal that a double is. -/
def exact (x : Binary64) : Decimal := ⟨x.magnitude * Nat.pow 5 1074, -1074⟩

theorem value_exact (x : Binary64) : x.exact.value = x.size := by
  have hexponent : (-1074 : Int) = -((1074 : Nat) : Int) := rfl
  rw [Decimal.value, size, exact, hexponent]
  generalize 1074 = k
  have hten : (10 : ℚ) ^ k = 5 ^ k * 2 ^ k := by rw [← mul_pow]; norm_num
  rw [zpow_neg, zpow_natCast, hten, Nat.pow_eq, Nat.cast_mul, Nat.cast_pow, Nat.cast_ofNat]
  field_simp

section
variable {x : Binary64} (hfinite : x.isFinite) (hsign : ¬ x.isNegative)
include hfinite hsign

theorem read_exact : x.exact.read = x := by
  obtain ⟨n, k, hk, hread, hvalue⟩ := x.exact.exists_read_eq
  rw [hread]
  exact ofRatio_eq_of_size hfinite hsign hk (hvalue.trans x.value_exact)

/-- **The shortest decimal of a double is read as that double.** -/
theorem read_shortest : x.shortest.read = x := by
  have habs : x.abs = x := by
    rw [abs, Nat.mod_eq_of_lt (word_lt_of_not_isNegative hsign), word, UInt64.ofNat_toNat]
  rw [shortest]
  cases hhit : (List.range 20).findSome? _ with
  | none => exact read_exact hfinite hsign
  | some d =>
    obtain ⟨step, -, hstep⟩ := List.exists_of_findSome?_eq_some hhit
    obtain ⟨f, hf, rfl⟩ := Option.map_eq_some_iff.1 hstep
    exact (pointOnGrid?_reads hf).trans habs

/-- The digits of a shortest decimal are zero for a zero only. -/
theorem digits_shortest_pos (hzero : ¬ x.isZero) : 0 < x.shortest.digits := by
  refine Nat.pos_of_ne_zero fun hdigits => hzero ?_
  have hvalue : x.shortest.value = (⟨0, 0⟩ : Decimal).value := by
    rw [Decimal.value, hdigits]
    simp [Decimal.value]
  rw [← read_shortest hfinite hsign, Decimal.read_congr hvalue]
  decide +kernel

/-- A power of ten that is read as a double of its own leading power, and no
    smaller than itself, parts doubles as it parts their shortest decimals. -/
theorem le_leadingPower_shortest_iff {p : Int}
    (hpower : p ≤ (Decimal.read ⟨1, p⟩).shortest.leadingPower)
    (hsize : (10 : ℚ) ^ p ≤ (Decimal.read ⟨1, p⟩).size) (hzero : ¬ x.isZero) :
    p ≤ x.shortest.leadingPower ↔ (10 : ℚ) ^ p ≤ x.size := by
  have hvalue : (⟨1, p⟩ : Decimal).value = 10 ^ p := by simp [Decimal.value]
  have hread := read_shortest hfinite hsign
  have hexact := read_exact hfinite hsign
  rw [Decimal.le_leadingPower_iff (digits_shortest_pos hfinite hsign hzero), ← hvalue,
    ← x.value_exact]
  -- if the power is between the shortest and the exact decimal, it is read as the double
  constructor
  · intro hle
    by_contra hlt
    have hbetween := Decimal.read_eq_of_between hexact hread (lt_of_not_ge hlt).le hle
    rw [hbetween, ← hvalue, ← x.value_exact] at hsize
    exact hlt hsize
  · intro hle
    by_contra hlt
    have hbetween := Decimal.read_eq_of_between hread hexact (lt_of_not_ge hlt).le hle
    rw [hbetween, Decimal.le_leadingPower_iff (digits_shortest_pos hfinite hsign hzero),
      ← hvalue] at hpower
    exact hlt hpower

end

/-- How large a double is, from its magnitude. -/
theorem le_size_iff {x : Binary64} {n d : Nat} (hd : 0 < d) :
    (n / d : ℚ) ≤ x.size ↔ n * 2 ^ 1074 ≤ x.magnitude * d := by
  rw [size]
  generalize 1074 = k
  rw [div_le_div_iff₀ (Nat.cast_pos.2 hd) (by positivity)]
  exact_mod_cast Iff.rfl

/-- **Positional numbers.** The leading digit of the shortest decimal stands
    between `10^-4` and `10^15` for doubles from `10^-4` up to below `10^16`. -/
theorem leadingPower_shortest_bounds {x : Binary64} (hfinite : x.isFinite)
    (hsign : ¬ x.isNegative) (hzero : ¬ x.isZero) :
    -4 ≤ x.shortest.leadingPower ∧ x.shortest.leadingPower < 16 ↔
      1 / 10 ^ 4 ≤ x.size ∧ x.size < 10 ^ 16 := by
  have hleast : (Decimal.read ⟨1, -4⟩).shortest = ⟨1, -4⟩ := by decide +kernel
  have hbound : (Decimal.read ⟨1, 16⟩).shortest = ⟨1, 16⟩ := by decide +kernel
  have hleastSize : (1 : ℕ) / (10 ^ 4 : ℕ) ≤ (Decimal.read ⟨1, -4⟩).size :=
    (le_size_iff (by decide)).2 (by decide +kernel)
  have hboundSize : (10 ^ 16 : ℕ) / (1 : ℕ) ≤ (Decimal.read ⟨1, 16⟩).size :=
    (le_size_iff (by decide)).2 (by decide +kernel)
  rw [Nat.cast_one, div_one] at hboundSize
  have hfour : (10 : ℚ) ^ (-4 : ℤ) = 1 / 10 ^ 4 := by norm_num
  have hsixteen : (10 : ℚ) ^ (16 : ℤ) = 10 ^ 16 := by norm_num
  have hlower := le_leadingPower_shortest_iff hfinite hsign (p := -4)
    (by rw [hleast, Decimal.leadingPower_eq]; decide)
    (by rw [hfour]; exact_mod_cast hleastSize) hzero
  have hupper := le_leadingPower_shortest_iff hfinite hsign (p := 16)
    (by rw [hbound, Decimal.leadingPower_eq]; decide)
    (by rw [hsixteen]; exact_mod_cast hboundSize) hzero
  rw [hlower, ← not_le, hupper, hfour, hsixteen, not_le]

end Binary64

end Stacklet
