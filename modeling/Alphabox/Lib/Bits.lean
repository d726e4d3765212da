import Alphabox.Lib.Numerals
import Mathlib.Data.BitVec

/-!
# Comparing bit vectors under a mask
-/

namespace Lib

variable {n : Nat} {a b m : BitVec n}

/-- Two vectors agree under a mask when they agree in each of its bits. -/
theorem xor_and_eq_zero : (a ^^^ b) &&& m = 0 ↔
    ∀ i, m.getLsbD i = true → a.getLsbD i = b.getLsbD i := by
  constructor
  · intro h i hi
    have := congrArg (·.getLsbD i) h
    simpa [hi] using this
  · intro h
    refine BitVec.eq_of_getLsbD_eq fun i _ => ?_
    cases hm : m.getLsbD i with
    | false => simp [hm]
    | true => simp [hm, h i hm]

theorem and_eq_and : a &&& m = b &&& m ↔ ∀ i, m.getLsbD i = true → a.getLsbD i = b.getLsbD i := by
  constructor
  · intro h i hi
    have := congrArg (·.getLsbD i) h
    simpa [hi] using this
  · intro h
    refine BitVec.eq_of_getLsbD_eq fun i _ => ?_
    cases hm : m.getLsbD i with
    | false => simp [hm]
    | true => simp [hm, h i hm]

/-- A vector is not zero when one of its bits is set. -/
theorem ne_zero_iff : a ≠ 0 ↔ ∃ i, a.getLsbD i = true := by
  constructor
  · intro h
    by_contra hn
    refine h (BitVec.eq_of_getLsbD_eq fun i _ => ?_)
    simpa using fun hi => hn ⟨i, hi⟩
  · rintro ⟨i, hi⟩ rfl
    simp at hi

theorem and_ne_zero_iff : a &&& m ≠ 0 ↔ ∃ i, a.getLsbD i = true ∧ m.getLsbD i = true := by
  rw [ne_zero_iff]
  simp

theorem twoPow_bit {i j : Nat} (hj : j < n) : (BitVec.twoPow n j).getLsbD i = true ↔ i = j := by
  rw [BitVec.getLsbD_twoPow, Bool.and_eq_true, decide_eq_true_eq, decide_eq_true_eq]
  exact ⟨fun h => h.2.symm, fun h => ⟨hj, h.symm⟩⟩

/-- One bit picked out. -/
theorem and_twoPow_ne_zero {i : Nat} (hi : i < n) :
    a &&& BitVec.twoPow n i ≠ 0 ↔ a.getLsbD i = true := by
  rw [and_ne_zero_iff]
  constructor
  · rintro ⟨j, hj, hij⟩
    exact (twoPow_bit hi).1 hij ▸ hj
  · intro h
    exact ⟨i, h, (twoPow_bit hi).2 rfl⟩

/-- The low bits of a vector. -/
theorem lowMask_bit (k i : Nat) :
    (a &&& BitVec.ofNat n (2 ^ k - 1)).getLsbD i = true ↔ i < k ∧ a.getLsbD i = true := by
  rw [BitVec.getLsbD_and, BitVec.getLsbD_ofNat, Nat.testBit_two_pow_sub_one]
  constructor
  · intro h
    simp only [Bool.and_eq_true, decide_eq_true_eq] at h
    exact ⟨h.2.2, h.1⟩
  · rintro ⟨hk, h⟩
    have hi : i < n := BitVec.lt_of_getLsbD h
    simp [hk, h, hi]

/-- The bits of a vector from `low` on are its value rounded down. -/
theorem toNat_and_high (a : BitVec n) (low : Nat) :
    (a &&& (BitVec.allOnes n <<< low)).toNat = a.toNat / 2 ^ low * 2 ^ low := by
  have hshift : a &&& (BitVec.allOnes n <<< low) = (a >>> low) <<< low := by
    refine BitVec.eq_of_getLsbD_eq fun i hi => ?_
    simp only [BitVec.getLsbD_and, BitVec.getLsbD_shiftLeft, BitVec.getLsbD_allOnes,
      BitVec.getLsbD_ushiftRight, hi, decide_true, Bool.true_and]
    by_cases hlow : i < low
    · simp [hlow]
    · have hone : i - low < n := by omega
      have hsum : low + (i - low) = i := by omega
      simp [hlow, hone, hsum]
  have hle : a.toNat / 2 ^ low * 2 ^ low < 2 ^ n :=
    Nat.lt_of_le_of_lt (Nat.div_mul_le_self _ _) a.isLt
  rw [hshift, BitVec.toNat_shiftLeft, BitVec.toNat_ushiftRight, Nat.shiftRight_eq_div_pow,
    Nat.shiftLeft_eq, Nat.mod_eq_of_lt hle]

end Lib
