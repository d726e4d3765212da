import Alphabox.Fp.Proof.Rpack

/-!
# Aligned fractions

The fractions of two operands, each with eleven zero bits at its end, after the smaller has been
shifted to the exponent of the larger with a sticky bit.
-/

namespace Alphabox.Fp

open Lib

/-- The number of an unpacked operand's fraction: normalised, with no bit below the last place. -/
structure Frac (f : ℕ) : Prop where
  top : 2 ^ 63 ≤ f
  lt : f < 2 ^ 64
  low : f % 2 ^ 11 = 0

section

variable {A B n : ℕ}

/-- Bits are lost only in a long shift. -/
theorem Frac.lost (hB : Frac B) (h : B % 2 ^ n ≠ 0) : 12 ≤ n := by
  by_contra hn
  refine h (Nat.mod_eq_zero_of_dvd ?_)
  exact Nat.dvd_trans (Nat.pow_dvd_pow 2 (by omega)) (Nat.dvd_of_mod_eq_zero hB.low)

theorem Frac.jam_lt (hB : Frac B) (h : 12 ≤ n) : shiftJam B n < 2 ^ 52 :=
  shiftJam_lt (Nat.lt_of_lt_of_le hB.lt (Nat.pow_le_pow_right (by decide) (by omega))) (by decide)

theorem Frac.jam_le (hA : Frac A) (hB : Frac B) (hle : n = 0 → B ≤ A) : shiftJam B n ≤ A := by
  have h1 := hA.top
  have h2 := hB.lt
  by_cases hn : n = 0
  · subst hn
    have := hle rfl
    simp [shiftJam, Nat.mod_one]
    omega
  · have := shiftJam_lt (f := B) (n := n) (m := 63)
      (Nat.lt_of_lt_of_le h2 (Nat.pow_le_pow_right (by decide) (by omega))) (by decide)
    omega

variable {K : Type*} [Field K] [LinearOrder K] [IsStrictOrderedRing K]

/-- The difference is on the same side as the exact one. -/
theorem Frac.sub_side (hA : Frac A) (hB : Frac B) (hle : n = 0 → B ≤ A) :
    SameSide (2 ^ 1) ((A - shiftJam B n : ℕ) : K) (A - B / 2 ^ n) := by
  have hjam := (shiftJam_sameSide_pow (K := K) B n (le_refl 1)).neg.shift ((A / 2 : ℕ) : ℤ)
  have hA2 : A / 2 * 2 = A := by
    have := hA.low
    omega
  have e : (((A / 2 : ℕ) : ℤ) : K) * 2 ^ 1 = A := by
    rw [pow_one]
    exact_mod_cast hA2
  rw [e, neg_add_eq_sub, neg_add_eq_sub] at hjam
  rwa [Nat.cast_sub (hA.jam_le hB hle)]

/-- So it is after normalisation, which is by at most one place when bits were lost. -/
theorem Frac.sub_norm (hA : Frac A) (hB : Frac B) (hle : n = 0 → B ≤ A) {k : ℕ}
    (hk : (A - shiftJam B n) * 2 ^ k < 2 ^ 64) :
    SameSide (2 ^ 10) (((A - shiftJam B n) * 2 ^ k : ℕ) : K) ((A - B / 2 ^ n) * 2 ^ k) := by
  have hs := (hA.sub_side (K := K) hB hle).mul_pow k
  push_cast
  by_cases hl : B % 2 ^ n = 0
  · rw [Nat.cast_sub (hA.jam_le hB hle), shiftJam_exact hl]
    exact .refl _ _
  · have hn := hB.lost hl
    have hj := hB.jam_lt hn
    have hA1 := hA.top
    refine hs.coarsen_pow ?_
    by_contra hk2
    have : 2 ^ 2 ≤ 2 ^ k := Nat.pow_le_pow_right (by decide) (by omega)
    have h62 : 2 ^ 62 ≤ A - shiftJam B n := by omega
    have := Nat.mul_le_mul h62 this
    omega

theorem Frac.sub_eq_zero (hA : Frac A) (hB : Frac B) (hle : n = 0 → B ≤ A)
    (h : A - shiftJam B n = 0) : (A : K) - B / 2 ^ n = 0 := by
  have hj := hA.jam_le hB hle
  by_cases hl : B % 2 ^ n = 0
  · rw [← shiftJam_exact hl, ← Nat.cast_sub hj, h, Nat.cast_zero]
  · have := hB.jam_lt (hB.lost hl)
    have := hA.top
    omega

/-- The sum is on the same side as the exact one. -/
theorem Frac.add_side (hA : Frac A) (B n : ℕ) :
    SameSide (2 ^ 1) ((A + shiftJam B n : ℕ) : K) (A + B / 2 ^ n) := by
  have hjam := (shiftJam_sameSide_pow (K := K) B n (le_refl 1)).shift ((A / 2 : ℕ) : ℤ)
  have hA2 : A / 2 * 2 = A := by
    have := hA.low
    omega
  have e : (((A / 2 : ℕ) : ℤ) : K) * 2 ^ 1 = A := by
    rw [pow_one]
    exact_mod_cast hA2
  rw [e, add_comm _ (A : K), add_comm _ (A : K)] at hjam
  push_cast
  exact hjam

/-- So it is after the shift of a carry. -/
theorem Frac.add_carry (hA : Frac A) (B n : ℕ) :
    SameSide (2 ^ 1) (shiftJam (A + shiftJam B n) 1 : K) ((A + B / 2 ^ n) / 2) := by
  have h1 := shiftJam_sameSide_pow (K := K) (A + shiftJam B n) 1 (le_refl 1)
  have h2 := ((hA.add_side (K := K) B n).coarsen_pow (show 1 ≤ 1 + 1 by omega)).div_pow (n := 1)
  rw [pow_one] at h2 ⊢
  rw [pow_one] at h1
  exact h1.trans h2

end

end Alphabox.Fp
