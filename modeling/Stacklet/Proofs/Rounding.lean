/-
  Rounding to doubles.

  A quotient is rounded to a multiple of the power of two that leaves it
  fifty-three bits (`IsUnitScale`). A larger quotient is rounded to no smaller
  double, and the value of a double to that double.

  * `isUnitScale_unitScale`, `IsUnitScale.unique`: there is one such power;
  * `nearestMultiple_mono`, `word_ofRatio_mono`: rounding is monotone;
  * `ofRatio_eq_of_size`: values of doubles are not changed.
-/
import Mathlib.Algebra.Order.Field.Rat
import Mathlib.Tactic.Linarith
import Mathlib.Tactic.Positivity
import Mathlib.Tactic.Ring
import Stacklet.Binary64

namespace Stacklet.Binary64

/-! ## The nearest multiple -/

theorem nearestMultiple_mul (m : Nat) {d : Nat} (hd : 0 < d) : nearestMultiple (m * d) d = m := by
  simp [nearestMultiple, Nat.mul_div_cancel m hd, hd]

theorem nearestMultiple_le_succ (a d : Nat) : nearestMultiple a d ≤ a / d + 1 := by
  rw [nearestMultiple]
  split_ifs
  · exact Nat.le_succ _
  · exact Nat.le_refl _

theorem le_nearestMultiple (a d : Nat) : a / d ≤ nearestMultiple a d := by
  rw [nearestMultiple]
  split_ifs
  · exact Nat.le_refl _
  · exact Nat.le_succ _

section
variable {a d a' d' : Nat} (hd : 0 < d) (hd' : 0 < d') (hle : a * d' ≤ a' * d)
include hd hd' hle

/-- Of two quotients with one whole part, the larger one is not rounded down
    unless the other one is. -/
theorem nearestMultiple_mono_of_div_eq (hdiv : a / d = a' / d') :
    nearestMultiple a d ≤ nearestMultiple a' d' := by
  have ha := Nat.div_add_mod a d
  have ha' := Nat.div_add_mod a' d'
  have hrest : a % d * d' ≤ a' % d' * d := by
    rw [hdiv] at ha
    nlinarith
  rw [nearestMultiple, nearestMultiple, ← hdiv]
  split_ifs with hdown hdown' hdown'
  · exact Nat.le_refl _
  · exact Nat.le_succ _
  · exfalso
    -- the remainder is half of the divisor at least, and then the other one is too
    have hhalf : d ≤ 2 * (a % d) := by omega
    have hscaled : d * d' ≤ 2 * (a' % d') * d := by
      have := Nat.mul_le_mul_right d' hhalf
      nlinarith
    have hhalf' : d' ≤ 2 * (a' % d') := by
      refine Nat.le_of_mul_le_mul_right ?_ hd
      rwa [Nat.mul_comm d' d]
    obtain ⟨htie, heven⟩ : 2 * (a' % d') = d' ∧ a / d % 2 = 0 := by omega
    have habove : d < 2 * (a % d) := by omega
    have := Nat.mul_lt_mul_of_pos_right habove hd'
    nlinarith
  · exact Nat.le_refl _

/-- **A larger quotient has no smaller nearest integer.** -/
theorem nearestMultiple_mono : nearestMultiple a d ≤ nearestMultiple a' d' := by
  have hdiv : a / d ≤ a' / d' := by
    rw [Nat.le_div_iff_mul_le hd']
    refine Nat.le_of_mul_le_mul_right ?_ hd
    calc
      a / d * d' * d = a / d * d * d' := Nat.mul_right_comm _ _ _
      _ ≤ a * d' := Nat.mul_le_mul_right d' (Nat.div_mul_le_self a d)
      _ ≤ a' * d := hle
  rcases Nat.lt_or_eq_of_le hdiv with hlt | heq
  · calc
      nearestMultiple a d ≤ a / d + 1 := nearestMultiple_le_succ a d
      _ ≤ a' / d' := hlt
      _ ≤ nearestMultiple a' d' := le_nearestMultiple a' d'
  · exact nearestMultiple_mono_of_div_eq hd hd' hle heq

end

/-! ## The scale of a quotient -/

/-- In units of `2^p`, the quotient has fifty-three bits before its point, or no
    more than that if `p` is zero. -/
structure IsUnitScale (a d p : Nat) : Prop where
  lt : a < d * 2 ^ (p + 53)
  le : p = 0 ∨ d * 2 ^ (p + 52) ≤ a

theorem isUnitScale_unitScale (a : Nat) {d : Nat} (hd : 0 < d) :
    IsUnitScale a d (unitScale a d) := by
  have hla : a < 2 ^ (a.log2 + 1) := Nat.lt_log2_self
  have hld : d < 2 ^ (d.log2 + 1) := Nat.lt_log2_self
  have hdl : 2 ^ d.log2 ≤ d := Nat.log2_self_le hd.ne'
  rw [unitScale]
  simp only [Nat.shiftLeft_eq]
  split_ifs with h
  · obtain ⟨hpos, hlt⟩ := h
    have hal : 2 ^ a.log2 ≤ a := Nat.log2_self_le fun ha => by simp [ha] at hpos
    generalize hp : a.log2 - (d.log2 + 52) = p at hpos hlt
    have hsum : d.log2 + 1 + (p - 1 + 52) = a.log2 := by omega
    refine ⟨?_, Or.inr ?_⟩
    · rwa [show p - 1 + 53 = p + 52 by omega]
    · calc
        d * 2 ^ (p - 1 + 52) ≤ 2 ^ (d.log2 + 1) * 2 ^ (p - 1 + 52) :=
          Nat.mul_le_mul_right _ hld.le
        _ = 2 ^ a.log2 := by rw [← Nat.pow_add, hsum]
        _ ≤ a := hal
  · generalize hp : a.log2 - (d.log2 + 52) = p at h
    refine ⟨?_, ?_⟩
    · calc
        a < 2 ^ (a.log2 + 1) := hla
        _ ≤ 2 ^ (d.log2 + (p + 53)) := Nat.pow_le_pow_right (by decide) (by omega)
        _ = 2 ^ d.log2 * 2 ^ (p + 53) := Nat.pow_add ..
        _ ≤ d * 2 ^ (p + 53) := Nat.mul_le_mul_right _ hdl
    · rcases Nat.eq_zero_or_pos p with hzero | hpos
      · exact Or.inl hzero
      · exact Or.inr (Nat.le_of_not_lt fun hlt => h ⟨hpos, hlt⟩)

/-- The scale of a larger quotient is no smaller. -/
theorem IsUnitScale.mono {a d p a' d' p' : Nat} (h : IsUnitScale a d p)
    (h' : IsUnitScale a' d' p') (hd : 0 < d) (hle : a * d' ≤ a' * d) : p ≤ p' := by
  rcases h.le with rfl | hbig
  · exact Nat.zero_le p'
  · have hpow : 2 ^ (p + 52) * (d * d') < 2 ^ (p' + 53) * (d * d') := by
      calc
        2 ^ (p + 52) * (d * d') = d * 2 ^ (p + 52) * d' := by ring
        _ ≤ a * d' := Nat.mul_le_mul_right d' hbig
        _ ≤ a' * d := hle
        _ < d' * 2 ^ (p' + 53) * d := Nat.mul_lt_mul_of_pos_right h'.lt hd
        _ = 2 ^ (p' + 53) * (d * d') := by ring
    have hexp := (Nat.pow_lt_pow_iff_right (by decide)).1
      (Nat.lt_of_mul_lt_mul_right hpow)
    omega

theorem IsUnitScale.unique {a d p q : Nat} (h : IsUnitScale a d p) (h' : IsUnitScale a d q)
    (hd : 0 < d) : p = q :=
  Nat.le_antisymm (h.mono h' hd (Nat.le_refl _)) (h'.mono h hd (Nat.le_refl _))

section
variable {a d p : Nat} (h : IsUnitScale a d p) (hd : 0 < d)
include h hd

/-- At its scale, a quotient is rounded to fifty-three bits, or to the next power
    of two. -/
theorem IsUnitScale.nearestMultiple_le : nearestMultiple a (d <<< p) ≤ 2 ^ 53 := by
  rw [Nat.shiftLeft_eq]
  have hpos : 0 < d * 2 ^ p := Nat.mul_pos hd (Nat.two_pow_pos p)
  have hle : a ≤ 2 ^ 53 * (d * 2 ^ p) := by
    calc
      a ≤ d * 2 ^ (p + 53) := h.lt.le
      _ = 2 ^ 53 * (d * 2 ^ p) := by ring
  calc
    nearestMultiple a (d * 2 ^ p) ≤ nearestMultiple (2 ^ 53 * (d * 2 ^ p)) (d * 2 ^ p) :=
      nearestMultiple_mono hpos hpos (Nat.mul_le_mul_right _ hle)
    _ = 2 ^ 53 := nearestMultiple_mul _ hpos

theorem IsUnitScale.le_nearestMultiple (hp : p ≠ 0) : 2 ^ 52 ≤ nearestMultiple a (d <<< p) := by
  rw [Nat.shiftLeft_eq]
  refine Nat.le_trans ?_ (Binary64.le_nearestMultiple _ _)
  rw [Nat.le_div_iff_mul_le (Nat.mul_pos hd (Nat.two_pow_pos p))]
  calc
    2 ^ 52 * (d * 2 ^ p) = d * 2 ^ (p + 52) := by ring
    _ ≤ a := h.le.resolve_left hp

end

/-! ## The nearest double -/

theorem eq_of_word {x y : Binary64} (h : x.word = y.word) : x = y := by
  cases x
  cases y
  exact congrArg mk (UInt64.toNat_inj.1 h)

/-- A significand that is rounded up to `2^53` carries into the exponent. -/
theorem word_ofRatio (n : Nat) {d p : Nat} (h : IsUnitScale (n <<< 1074) d p) (hd : 0 < d) :
    (ofRatio n d).word =
      min (p * leadingOne + nearestMultiple (n <<< 1074) (d <<< p)) (2047 * leadingOne) := by
  obtain rfl := h.unique (isUnitScale_unitScale _ hd) hd
  rw [word, ofRatio, UInt64.toNat_ofNat_of_lt' ((Nat.min_le_right _ _).trans_lt (by decide))]

/-- **A larger quotient is rounded to no smaller double.** -/
theorem word_ofRatio_mono {n d n' d' : Nat} (hd : 0 < d) (hd' : 0 < d')
    (hle : n * d' ≤ n' * d) : (ofRatio n d).word ≤ (ofRatio n' d').word := by
  have hscale := isUnitScale_unitScale (n <<< 1074) hd
  have hscale' := isUnitScale_unitScale (n' <<< 1074) hd'
  have hunits : n <<< 1074 * d' ≤ n' <<< 1074 * d := by
    rw [Nat.shiftLeft_eq, Nat.shiftLeft_eq, Nat.mul_right_comm, Nat.mul_right_comm n']
    exact Nat.mul_le_mul_right _ hle
  have hp := hscale.mono hscale' hd hunits
  rw [word_ofRatio n hscale hd, word_ofRatio n' hscale' hd']
  generalize n <<< 1074 = a at hscale hunits hp ⊢
  generalize n' <<< 1074 = a' at hscale' hunits hp ⊢
  generalize unitScale a d = p at hscale hp ⊢
  generalize unitScale a' d' = p' at hscale' hp ⊢
  refine min_le_min_right _ ?_
  rcases Nat.lt_or_eq_of_le hp with hlt | rfl
  · -- the significand may be rounded up to the next power of two, which is the least
    -- significand at the next scale
    have hm := hscale.nearestMultiple_le hd
    have hm' := hscale'.le_nearestMultiple hd' (by omega)
    simp only [leadingOne]
    omega
  · refine Nat.add_le_add_left (nearestMultiple_mono ?_ ?_ ?_) _
    all_goals simp only [Nat.shiftLeft_eq]
    · exact Nat.mul_pos hd (Nat.two_pow_pos p)
    · exact Nat.mul_pos hd' (Nat.two_pow_pos p)
    · rw [← Nat.mul_assoc, ← Nat.mul_assoc]
      exact Nat.mul_le_mul_right _ hunits

/-! ## Values of doubles -/

/-- The absolute value of a finite double. -/
def size (x : Binary64) : ℚ := x.magnitude / 2 ^ 1074

theorem word_lt_of_not_isNegative {x : Binary64} (h : ¬ x.isNegative) : x.word < signBit := by
  simpa [isNegative] using h

section
variable {x : Binary64} (hfinite : x.isFinite) (hsign : ¬ x.isNegative)
include hfinite hsign

/-- A double without a sign is its exponent and its fraction. -/
theorem word_of_isFinite :
    x.exponentField < 2047 ∧ x.exponentField * leadingOne + x.fraction = x.word := by
  have hexponent : x.exponentField ≠ 2047 := by simpa [isFinite] using hfinite
  have hword := word_lt_of_not_isNegative hsign
  simp only [exponentField, fraction, signBit, leadingOne] at *
  omega

/-- The word of a double, from its significand. -/
theorem word_of_significand :
    x.scale * leadingOne + x.significand = x.word ∧ x.word < 2047 * leadingOne := by
  obtain ⟨hexponent, hword⟩ := word_of_isFinite hfinite hsign
  have hfraction : x.fraction < leadingOne := Nat.mod_lt _ (by decide)
  rw [scale, significand, ← hword]
  rw [leadingOne] at *
  split_ifs with hzero
  · omega
  · omega

omit hfinite hsign in
/-- The scale of a double is that of its value. -/
theorem isUnitScale_magnitude (x : Binary64) {d : Nat} (hd : 0 < d) :
    IsUnitScale (x.magnitude * d) d x.scale := by
  have hfraction : x.fraction < 2 ^ 52 := Nat.mod_lt _ (by decide)
  have hlt : x.significand < 2 ^ 53 := by
    rw [significand, leadingOne]
    split_ifs <;> omega
  have hle : x.scale = 0 ∨ 2 ^ 52 ≤ x.significand := by
    rw [significand, scale, leadingOne]
    split_ifs <;> omega
  rw [magnitude, Nat.shiftLeft_eq]
  refine ⟨?_, hle.imp_right fun hle => ?_⟩
  · calc
      x.significand * 2 ^ x.scale * d < 2 ^ 53 * 2 ^ x.scale * d :=
        Nat.mul_lt_mul_of_pos_right (Nat.mul_lt_mul_of_pos_right hlt (Nat.two_pow_pos _)) hd
      _ = d * 2 ^ (x.scale + 53) := by ring
  · calc
      d * 2 ^ (x.scale + 52) = 2 ^ 52 * 2 ^ x.scale * d := by ring
      _ ≤ x.significand * 2 ^ x.scale * d :=
        Nat.mul_le_mul_right _ (Nat.mul_le_mul_right _ hle)

/-- **A quotient that is the value of a double is rounded to that double.** -/
theorem ofRatio_eq_of_size {n d : Nat} (hd : 0 < d) (h : (n / d : ℚ) = x.size) :
    ofRatio n d = x := by
  have hunits : n <<< 1074 = x.magnitude * d := by
    have hd' : (d : ℚ) ≠ 0 := Nat.cast_ne_zero.2 hd.ne'
    rw [size] at h
    rw [Nat.shiftLeft_eq]
    -- or else the casts compute the power
    generalize 1074 = k at h ⊢
    rw [div_eq_div_iff hd' (by positivity)] at h
    exact_mod_cast h
  have hscale := hunits ▸ isUnitScale_magnitude x hd
  obtain ⟨hword, hlt⟩ := word_of_significand hfinite hsign
  have hnearest : nearestMultiple (n <<< 1074) (d <<< x.scale) = x.significand := by
    rw [hunits, magnitude, Nat.shiftLeft_eq, Nat.shiftLeft_eq, Nat.mul_assoc,
      Nat.mul_comm _ d]
    exact nearestMultiple_mul _ (Nat.mul_pos hd (Nat.two_pow_pos _))
  refine eq_of_word ?_
  rw [word_ofRatio n hscale hd, hnearest, hword]
  exact Nat.min_eq_left hlt.le

end

end Stacklet.Binary64
