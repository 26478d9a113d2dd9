/-
  Integer powers on the host.

  Powers come from repeated squaring that gives up at the first product with
  more than 64 bits. No product on the way has more of them if the power has
  not: the base is squared only as long as its square is a factor of what is to
  come out.

  * `squaringPow?_eq`: powers are exact, or none if they have more than 64 bits;
  * `not_fitsInt64_pow`: those of any base but zero, one and minus one have, from
    the 64th on;
  * `call_pow_int`: what a call yields. Exponents have at most 32 bits, and any
    larger one overflows; that is too strict for zero, one and minus one
    (`call_pow_one`), and for no other base.
-/
import Mathlib.Tactic.Linarith
import Stacklet.Host
import Stacklet.Proofs.Lexemes

namespace Stacklet

/-! ## Range -/

/-- An integer has at most 64 bits. -/
def FitsInt64 (k : Int) : Prop := -2 ^ 63 ≤ k ∧ k < 2 ^ 63

instance (k : Int) : Decidable (FitsInt64 k) := inferInstanceAs (Decidable (_ ∧ _))

theorem int64?_eq_none {k : Int} : int64? k = none ↔ ¬ FitsInt64 k := by
  have hmin : Int64.minValue.toInt = -2 ^ 63 := rfl
  have hmax : Int64.maxValue.toInt = 2 ^ 63 - 1 := rfl
  rw [int64?, ite_eq_right_iff, hmin, hmax, FitsInt64]
  simp only [reduceCtorEq, imp_false]
  omega

theorem int64?_toInt (n : Int64) : int64? n.toInt = some n := int64?_eq_some_iff.2 rfl

theorem fitsInt64_toInt (n : Int64) : FitsInt64 n.toInt :=
  ⟨Int64.minValue_le_toInt n, Int.lt_add_one_iff.2 n.toInt_le⟩

/-- A factor of at least one only makes an integer larger. -/
theorem FitsInt64.of_mul {x y : Int} (h : FitsInt64 (x * y)) (hy : 1 ≤ y) : FitsInt64 x := by
  obtain ⟨hmin, hmax⟩ := h
  rcases le_or_gt 0 x with hx | hx
  · have hle : x ≤ x * y := le_mul_of_one_le_right hx hy
    exact ⟨by omega, by omega⟩
  · have hle : x * y ≤ x := by nlinarith
    exact ⟨by omega, by omega⟩

/-- No square is `2 ^ 63`, so a square that divides a number of 64 bits has 64
    bits itself, although negative numbers reach one further than others. -/
theorem FitsInt64.square {a b : Int} (h : FitsInt64 (a * (b * b))) (ha : a ≠ 0) :
    FitsInt64 (b * b) := by
  obtain ⟨hmin, hmax⟩ := h
  have hsquare : 0 ≤ b * b := mul_self_nonneg b
  have hle : b * b ≤ 2 ^ 63 := by
    rcases lt_or_gt_of_ne ha with hneg | hpos <;> nlinarith
  have hne : b * b ≠ 2 ^ 63 := by
    intro heq
    rcases le_or_gt b.natAbs 3037000499 with hb | hb
    · have := Nat.mul_le_mul hb hb
      rw [← Int.natAbs_mul, heq] at this
      omega
    · have := Nat.mul_le_mul (Nat.succ_le_of_lt hb) (Nat.succ_le_of_lt hb)
      rw [← Int.natAbs_mul, heq] at this
      omega
  exact ⟨by omega, lt_of_le_of_ne hle hne⟩

/-! ## Repeated squaring -/

/-- A round takes the lowest bit of the exponent into the accumulator. -/
theorem mul_pow_eq (a b : Int) (e : Nat) :
    a * b ^ e = a * b ^ (e % 2) * (b * b) ^ (e / 2) := by
  conv_lhs => rw [← Nat.mod_add_div e 2, pow_add, pow_mul, pow_two, ← mul_assoc]

theorem mulInt?_lowest (acc base : Int64) (e : Nat) :
    (if e % 2 = 1 then mulInt? acc base else some acc) =
      int64? (acc.toInt * base.toInt ^ (e % 2)) := by
  rcases Nat.mod_two_eq_zero_or_one e with he | he
  · rw [he, pow_zero, mul_one, int64?_toInt, if_neg (by decide)]
  · rw [he, pow_one, if_pos rfl, mulInt?]

/-- The accumulator of a round has 64 bits if the result has. -/
theorem FitsInt64.lowest {acc base : Int64} {e : Nat}
    (h : FitsInt64 (acc.toInt * base.toInt ^ (e % 2) * (base.toInt * base.toInt) ^ (e / 2))) :
    FitsInt64 (acc.toInt * base.toInt ^ (e % 2)) := by
  by_cases hbase : base.toInt = 0
  · rcases Nat.mod_two_eq_zero_or_one e with he | he
    · rw [he, pow_zero, mul_one]
      exact fitsInt64_toInt acc
    · rw [he, hbase, pow_one, mul_zero]
      decide
  · exact h.of_mul (pow_pos (mul_self_pos.2 hbase) _)

/-- No product on the way has more than 64 bits if the result has not: the
    base is squared only as long as a square of it is a factor of the result. -/
theorem squaringFrom?_eq {acc base : Int64} (h : acc.toInt = 0 → base.toInt = 0) (e : Nat) :
    squaringFrom? acc base e = int64? (acc.toInt * base.toInt ^ e) := by
  induction e using Nat.strong_induction_on generalizing acc base with
  | _ e ih =>
    rw [squaringFrom?]
    by_cases h0 : e = 0
    · rw [if_pos h0, h0, pow_zero, mul_one, int64?_toInt]
    by_cases h1 : e = 1
    · rw [if_neg h0, if_pos h1, h1, pow_one, mulInt?]
    rw [if_neg h0, if_neg h1, mulInt?_lowest, mul_pow_eq _ _ e, mulInt?]
    have hzero : acc.toInt * base.toInt ^ (e % 2) = 0 → base.toInt = 0 := fun hacc =>
      (mul_eq_zero.1 hacc).elim h eq_zero_of_pow_eq_zero
    cases hacc : int64? (acc.toInt * base.toInt ^ (e % 2)) with
    | none => exact (int64?_eq_none.2 fun hfits => int64?_eq_none.1 hacc hfits.lowest).symm
    | some acc' =>
      rw [int64?_eq_some_iff] at hacc
      rw [← hacc] at hzero ⊢
      cases hbase : int64? (base.toInt * base.toInt) with
      | none =>
        have hne : base.toInt ≠ 0 := fun hb => int64?_eq_none.1 hbase (hb ▸ by decide)
        refine (int64?_eq_none.2 fun hfits => int64?_eq_none.1 hbase ?_).symm
        -- the exponent is two or more, so at least one square is left
        obtain ⟨k, hk⟩ : ∃ k, e / 2 = k + 1 := ⟨e / 2 - 1, by omega⟩
        rw [hk, pow_succ, ← mul_assoc] at hfits
        exact hfits.square (mul_ne_zero (mt hzero hne) (pow_ne_zero _ (mul_ne_zero hne hne)))
      | some base' =>
        rw [int64?_eq_some_iff] at hbase
        rw [← hbase]
        refine ih (e / 2) (by omega) fun hacc' => ?_
        rw [hbase, hzero hacc', mul_zero]

/-- **Powers are exact**, or none if they have more than 64 bits. -/
theorem squaringPow?_eq (b : Int64) (e : Nat) : squaringPow? b e = int64? (b.toInt ^ e) := by
  have hone : (1 : Int64).toInt = 1 := rfl
  rw [squaringPow?, squaringFrom?_eq (fun h => absurd (hone.symm.trans h) one_ne_zero), hone,
    one_mul]

/-! ## Calls -/

/-- Powers of bases other than zero, one and minus one have more than 64 bits
    from the 64th on. -/
theorem not_fitsInt64_pow {b : Int} {e : Nat} (hb : 2 ≤ b.natAbs) (he : 64 ≤ e) :
    ¬ FitsInt64 (b ^ e) := by
  have hlarge : 2 ^ 64 ≤ (b ^ e).natAbs :=
    calc 2 ^ 64 ≤ b.natAbs ^ 64 := Nat.pow_le_pow_left hb 64
      _ ≤ b.natAbs ^ e := Nat.pow_le_pow_right (by omega) he
      _ = (b ^ e).natAbs := (Int.natAbs_pow b e).symm
  rw [FitsInt64]
  omega

/-- **A call of `pow` with integers, the second not negative, yields the exact
    power if that has at most 64 bits and the exponent at most 32, and overflows
    otherwise.** The bound on the exponent refuses powers of zero, one and minus
    one only: of any other base, no power from the 64th on has 64 bits. -/
theorem call_pow_int {b e : Int64} (he : 0 ≤ e.toInt) (sink : Sink) :
    (FitsInt64 (b.toInt ^ e.toInt.toNat) → e.toInt ≤ maxExponent →
        ∃ n : Int64, n.toInt = b.toInt ^ e.toInt.toNat ∧
          call (.builtin .pow) [.int b, .int e] sink = (.ok (.int n), sink)) ∧
      (¬ FitsInt64 (b.toInt ^ e.toInt.toNat) ∨ maxExponent < e.toInt →
        call (.builtin .pow) [.int b, .int e] sink = (.error (.overflow .power), sink)) ∧
      (2 ≤ b.toInt.natAbs → FitsInt64 (b.toInt ^ e.toInt.toNat) → e.toInt < 64) := by
  have hcall : call (.builtin .pow) [.int b, .int e] sink = (Value.pow (.int b) (.int e), sink) :=
    rfl
  rw [hcall, Value.pow, if_pos he, squaringPow?_eq]
  refine ⟨fun hfits hle => ?_, fun hover => ?_, fun hb hfits => ?_⟩
  · obtain ⟨n, hn⟩ := Option.ne_none_iff_exists'.1 (mt int64?_eq_none.1 (not_not_intro hfits))
    rw [if_pos (Int.toNat_le.2 hle), hn]
    exact ⟨n, int64?_eq_some_iff.1 hn, rfl⟩
  · split_ifs with hle
    · rw [int64?_eq_none.2 (hover.resolve_right (not_lt.2 (Int.toNat_le.1 hle)))]
    · rfl
  · by_contra hlarge
    exact not_fitsInt64_pow hb (by omega) hfits

/-- The least integer is a power, although its absolute value is not. -/
theorem call_pow_int_least :
    0 ≤ (63 : Int64).toInt ∧
      call (.builtin .pow) [.int (-2), .int 63] .empty =
        (.ok (.int Int64.minValue), .empty) := by
  have he : 0 ≤ (63 : Int64).toInt := by decide
  obtain ⟨n, hn, hcall⟩ := (call_pow_int (b := -2) he .empty).1 (by decide) (by decide)
  obtain rfl : n = Int64.minValue := Int64.toInt_inj.1 (hn.trans (by decide))
  exact ⟨he, hcall⟩

/-- One is the power of one with every exponent, but not with one of 33 bits. -/
theorem call_pow_one :
    (1 : Int64).toInt ^ (4294967296 : Int64).toInt.toNat = 1 ∧
      call (.builtin .pow) [.int 1, .int 4294967296] .empty =
        (.error (.overflow .power), .empty) :=
  ⟨one_pow _, rfl⟩

end Stacklet
